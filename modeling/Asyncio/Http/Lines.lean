import Asyncio.Http.Tokens
import Asyncio.Xmstream
import Mathlib.Data.List.DropRight

/-!
# Lines of an HTTP message

The scanners that the parsers of requests and responses share. Each of them is stable: what it decides on
some bytes it decides on more.

A `size_t` is a natural number with an explicit check against `sizeMax`.
-/

namespace Asyncio

namespace Http

open Incremental
open List hiding take

/-! ### Scanners -/

def isDigit (c : UInt8) : Bool := 48 ≤ c && c ≤ 57

/-- A blank of optional whitespace. -/
def isOWS (c : UInt8) : Bool := c = 32 || c = 9

/-- `"\r\n"` -/
def crlf : List UInt8 := [13, 10]

/-- `skipSPCharacters` -/
def skipSPCharacters : List UInt8 → Scan UInt8 Unit
  | [] => .needMoreData
  | c :: s => if c ≠ 32 then .error else skip (· = 32) (c :: s)

/-- `skipOWS` -/
def skipOWS (p : List UInt8) : Scan UInt8 Unit := skip isOWS p

/-- `trimTrailingOWS` -/
def trimTrailingOWS (value : List UInt8) : List UInt8 := value.rdropWhile isOWS

/-- `readUntilCRLF` -/
def readUntilCRLF (p : List UInt8) : Scan UInt8 Unit :=
  if 10 ∈ p.takeWhile (· ≠ 13) then .error
  else
    match p.dropWhile (· ≠ 13) with
    | _ :: c :: rest => if c ≠ 10 then .error else .ok () rest
    | _ => .needMoreData

/-- The loop of `readDec`: the value and the number of digits. -/
def readDigits (value digits : ℕ) : List UInt8 → Scan UInt8 (ℕ × ℕ)
  | [] => .ok (value, digits) []
  | c :: s =>
    if isDigit c then
      if value > (sizeMax - (c.toNat - 48)) / 10 then .error
      else readDigits (value * 10 + (c.toNat - 48)) (digits + 1) s
    else .ok (value, digits) (c :: s)

/-- The end of the line of a number. -/
def lineEnd (value digits : ℕ) (p : List UInt8) : Scan UInt8 ℕ :=
  (take 2 p).bind fun head rest => if digits = 0 ∨ head ≠ crlf then .error else .ok value rest

/-- `readDec` -/
def readDec (p : List UInt8) : Scan UInt8 ℕ :=
  (readDigits 0 0 p).bind fun (value, digits) p =>
    (skipOWS p).bind fun _ p => lineEnd value digits p

/-- The value of a hexadecimal digit. -/
def hexDigit (c : UInt8) : Option ℕ :=
  if 48 ≤ c ∧ c ≤ 57 then some (c.toNat - 48)
  else if 97 ≤ c ∧ c ≤ 102 then some (c.toNat - 97 + 10)
  else if 65 ≤ c ∧ c ≤ 70 then some (c.toNat - 65 + 10)
  else none

/-- The loop of `readHex`. -/
def readHexDigits (value digits : ℕ) : List UInt8 → Scan UInt8 (ℕ × ℕ)
  | [] => .ok (value, digits) []
  | c :: s =>
    match hexDigit c with
    | none => .ok (value, digits) (c :: s)
    | some digit =>
      if value > sizeMax >>> 4 then .error
      else readHexDigits (value <<< 4 ||| digit) (digits + 1) s

/-- The extension of a chunk. -/
def skipExtension : List UInt8 → Scan UInt8 Unit
  | [] => .ok () []
  | c :: s =>
    if c = 13 then .ok () (c :: s)
    else if c ≠ 59 then .error
    else skip (fun c => c ≠ 13 && c ≠ 10) (c :: s)

/-- `readHex` -/
def readHex (p : List UInt8) : Scan UInt8 ℕ :=
  (readHexDigits 0 0 p).bind fun (value, digits) p =>
    (skipExtension p).bind fun _ p => lineEnd value digits p

/-- `isChunkedTransferEncoding` -/
def isChunkedTransferEncoding (value : List UInt8) : Bool :=
  let chunked := bytes "chunked"
  if value.length < chunked.length then false
  else if (value.drop (value.length - chunked.length)).map (· ||| 0x20) ≠ chunked then false
  else if value.length = chunked.length then true
  else ((value.take (value.length - chunked.length)).rdropWhile isOWS).getLast? = some 44

/-! ### Header lines and chunks -/

/-- The part of the state of a parser that is about the framing of the body. -/
structure Framing where
  chunked : Bool
  firstFragment : Bool
  seenContentLength : Bool
  seenTransferEncoding : Bool
  dataRemaining : ℕ
  deriving DecidableEq

/-- The component of a header line. -/
structure HeaderLine where
  entryType : Int
  entryName : List UInt8
  stringValue : List UInt8
  sizeValue : ℕ
  deriving DecidableEq

/-- The value of a header, from the text of its line. -/
def headerValue (line : List UInt8) : List UInt8 := trimTrailingOWS (line.take (line.length - 2))

/-- The end of `parseHeaderLine`, once the line was read. -/
def finishHeaderLine (framing : Framing) (header : HeaderLine) (rest : List UInt8) :
    Scan UInt8 (Framing × HeaderLine) :=
  if header.entryType = hhTransferEncoding then
    if framing.seenContentLength || framing.chunked then .error
    else .ok ({ framing with
      chunked := isChunkedTransferEncoding header.stringValue
      seenTransferEncoding := true }, header) rest
  else .ok (framing, header) rest

/-- `parseHeaderLine` from the value on. -/
def parseHeaderValue (framing : Framing) (token : Int) (name : List UInt8) (p : List UInt8) :
    Scan UInt8 (Framing × HeaderLine) :=
  if token = hhContentLength then
    (withText readDec p).bind fun (contentSize, line) rest =>
      if framing.seenTransferEncoding ||
          (framing.seenContentLength && framing.dataRemaining ≠ contentSize) then .error
      else finishHeaderLine
        { framing with dataRemaining := contentSize, seenContentLength := true }
        ⟨token, name, headerValue line, contentSize⟩ rest
  else
    (withText readUntilCRLF p).bind fun (_, line) rest =>
      finishHeaderLine framing ⟨token, name, headerValue line, 0⟩ rest

/-- `parseHeaderLine`, without the call of `emit` at its end. -/
def parseHeaderLine (framing : Framing) (table : HeaderTable) (input : List UInt8) :
    Scan UInt8 (Framing × HeaderLine) :=
  (httpHeaderTableLookup table input).bind fun (token, name) p =>
    (skipOWS (p.drop 1)).bind fun _ p => parseHeaderValue framing token name p

/-- What one turn of `parseChunkedBody` comes to. -/
inductive ChunkTurn
  /-- Data of a chunk; the chunk may be complete or not. -/
  | fragment (complete : Bool) (data : List UInt8) (framing : Framing) (rest : List UInt8)
  | size (framing : Framing) (rest : List UInt8)
  /-- The chunk of size zero. -/
  | trailer (rest : List UInt8)
  | needMoreData
  | error

/-- What is between the data of two chunks. -/
def readChunkSize (firstFragment : Bool) (p : List UInt8) : Scan UInt8 ℕ :=
  if firstFragment then readHex p
  else (take 2 p).bind fun head p => if head ≠ crlf then .error else readHex p

/-- One turn of the loop of `parseChunkedBody`. -/
def parseChunkedTurn (framing : Framing) (p : List UInt8) : ChunkTurn :=
  if framing.dataRemaining ≠ 0 then
    if framing.dataRemaining ≤ p.length then
      .fragment true (p.take framing.dataRemaining)
        { framing with dataRemaining := 0, firstFragment := false } (p.drop framing.dataRemaining)
    else
      .fragment false p { framing with dataRemaining := framing.dataRemaining - p.length } []
  else
    match readChunkSize framing.firstFragment p with
    | .needMoreData => .needMoreData
    | .error => .error
    | .ok size rest =>
      if size = 0 then .trailer rest else .size { framing with dataRemaining := size } rest

/-! ### Stability -/

theorem stableBefore_skipSPCharacters : StableBefore skipSPCharacters := by
  intro x y hneed hend
  cases x with
  | nil => exact absurd rfl hneed
  | cons c s =>
    have hdef (t : List UInt8) : skipSPCharacters (c :: t) =
      if c ≠ 32 then .error else skip (· = 32) (c :: t) := rfl
    rw [hdef] at hneed hend
    rw [cons_append, hdef, hdef]
    by_cases hc : c ≠ 32
    · rw [if_pos hc, if_pos hc]
      rfl
    · rw [if_neg hc] at hneed hend
      rw [if_neg hc, if_neg hc]
      exact stableBefore_skip _ (c :: s) y hneed hend

theorem stable_readUntilCRLF : Stable readUntilCRLF := by
  intro x y hneed
  unfold readUntilCRLF at hneed ⊢
  by_cases hcr : x.dropWhile (· ≠ 13) = []
  · -- there is no CR: only a stray LF is decided
    have hall : ∀ c ∈ x, decide (c ≠ 13) = true := dropWhile_eq_nil_iff.mp hcr
    have hself : x.takeWhile (· ≠ 13) = x := takeWhile_eq_self_iff.mpr hall
    rw [hcr, hself] at hneed
    rw [takeWhile_append_of_pos hall, hself, hcr]
    by_cases hlf : 10 ∈ x
    · rw [if_pos hlf, if_pos (mem_append_left _ hlf)]
      rfl
    · rw [if_neg hlf] at hneed
      exact absurd rfl hneed
  · rw [takeWhile_append hcr, dropWhile_append hcr]
    by_cases hlf : 10 ∈ x.takeWhile (· ≠ 13)
    · rw [if_pos hlf, if_pos hlf]
      rfl
    · rw [if_neg hlf] at hneed
      rw [if_neg hlf, if_neg hlf]
      match hdrop : x.dropWhile (· ≠ 13) with
      | [] => exact absurd hdrop hcr
      | [_] =>
        rw [hdrop] at hneed
        exact absurd rfl hneed
      | _ :: c :: rest =>
        rw [hdrop, cons_append, cons_append]
        dsimp only
        split
        · rfl
        · rfl

theorem leaves_readUntilCRLF : Leaves readUntilCRLF := by
  intro x value rest h
  unfold readUntilCRLF at h
  split at h
  · cases h
  split at h
  · next c d tail hdrop =>
    split at h
    · cases h
    · cases h
      have hsuffix : c :: d :: rest <:+ x := hdrop ▸ dropWhile_suffix _
      exact ((suffix_cons d rest).trans (suffix_cons c _)).trans hsuffix
  · cases h

theorem stableBefore_readDigits (value digits : ℕ) : StableBefore (readDigits value digits) := by
  intro x y hneed hend
  induction x generalizing value digits with
  | nil => exact absurd rfl (hend (value, digits))
  | cons c x ih =>
    rw [cons_append, readDigits, readDigits]
    rw [readDigits] at hneed hend
    split
    · next hc =>
      rw [if_pos hc] at hneed hend
      split
      · rfl
      · next hvalue =>
        rw [if_neg hvalue] at hneed hend
        exact ih _ _ hneed hend
    · rfl

theorem stableBefore_readHexDigits (value digits : ℕ) :
    StableBefore (readHexDigits value digits) := by
  intro x y hneed hend
  induction x generalizing value digits with
  | nil => exact absurd rfl (hend (value, digits))
  | cons c x ih =>
    rw [cons_append, readHexDigits, readHexDigits]
    rw [readHexDigits] at hneed hend
    cases hc : hexDigit c with
    | none => rfl
    | some digit =>
      rw [hc] at hneed hend
      dsimp only at hneed hend ⊢
      split
      · rfl
      · next hvalue =>
        rw [if_neg hvalue] at hneed hend
        exact ih _ _ hneed hend

theorem stableBefore_skipExtension : StableBefore skipExtension := by
  intro x y hneed hend
  cases x with
  | nil => exact absurd rfl (hend ())
  | cons c s =>
    have hdef (t : List UInt8) : skipExtension (c :: t) = if c = 13 then .ok () (c :: t)
      else if c ≠ 59 then .error else skip (fun c => c ≠ 13 && c ≠ 10) (c :: t) := rfl
    rw [hdef] at hneed hend
    rw [cons_append, hdef, hdef]
    by_cases hcr : c = 13
    · rw [if_pos hcr, if_pos hcr]
      rfl
    rw [if_neg hcr] at hneed hend
    rw [if_neg hcr, if_neg hcr]
    by_cases hc : c ≠ 59
    · rw [if_pos hc, if_pos hc]
      rfl
    · rw [if_neg hc] at hneed hend
      rw [if_neg hc, if_neg hc]
      exact stableBefore_skip _ (c :: s) y hneed hend

theorem stable_lineEnd (value digits : ℕ) : Stable (lineEnd value digits) :=
  (stable_take 2).bind fun _ => .ite stable_error (stable_ok value)

theorem stable_readDec : Stable readDec :=
  (stableBefore_readDigits 0 0).bind
    (fun value => (stableBefore_skip _).bind (fun _ => stable_lineEnd value.1 value.2) fun _ => rfl)
    fun _ => rfl

theorem stable_readHex : Stable readHex :=
  (stableBefore_readHexDigits 0 0).bind
    (fun value => stableBefore_skipExtension.bind (fun _ => stable_lineEnd value.1 value.2)
      fun _ => rfl)
    fun _ => rfl

theorem leaves_readDigits (value digits : ℕ) : Leaves (readDigits value digits) := by
  intro x
  induction x generalizing value digits with
  | nil =>
    intro v rest h
    cases h
    exact suffix_refl _
  | cons c x ih =>
    intro v rest h
    rw [readDigits] at h
    split at h
    · split at h
      · cases h
      · exact (ih _ _ v rest h).trans (suffix_cons c x)
    · cases h
      exact suffix_refl _

theorem leaves_readHexDigits (value digits : ℕ) : Leaves (readHexDigits value digits) := by
  intro x
  induction x generalizing value digits with
  | nil =>
    intro v rest h
    cases h
    exact suffix_refl _
  | cons c x ih =>
    intro v rest h
    rw [readHexDigits] at h
    split at h
    · cases h
      exact suffix_refl _
    · split at h
      · cases h
      · exact (ih _ _ v rest h).trans (suffix_cons c x)

theorem leaves_skipExtension : Leaves skipExtension := by
  intro x value rest h
  cases x with
  | nil =>
    cases h
    exact suffix_refl _
  | cons c s =>
    unfold skipExtension at h
    dsimp only at h
    split at h
    · cases h
      exact suffix_refl _
    split at h
    · cases h
    · exact leaves_skip _ _ _ _ h

theorem leaves_lineEnd (value digits : ℕ) : Leaves (lineEnd value digits) :=
  (leaves_take 2).bind fun head => .ite leaves_error (leaves_ok value)

theorem leaves_readDec : Leaves readDec :=
  (leaves_readDigits 0 0).bind fun value => (leaves_skip _).bind fun _ =>
    leaves_lineEnd value.1 value.2

theorem shortens_lineEnd (value digits : ℕ) : Shortens (lineEnd value digits) :=
  (shortens_take Nat.two_pos).bind fun _ => .ite leaves_error (leaves_ok value)

theorem shortens_readHex : Shortens readHex :=
  (leaves_readHexDigits 0 0).bind_shortens fun value => leaves_skipExtension.bind_shortens fun _ =>
    shortens_lineEnd value.1 value.2

theorem stable_readChunkSize (firstFragment : Bool) : Stable (readChunkSize firstFragment) :=
  .ite stable_readHex ((stable_take 2).bind fun _ => .ite stable_error stable_readHex)

theorem shortens_readChunkSize (firstFragment : Bool) : Shortens (readChunkSize firstFragment) := by
  unfold readChunkSize
  split
  · exact shortens_readHex
  · refine (leaves_take 2).bind_shortens fun _ => ?_
    split
    · exact nofun
    · exact shortens_readHex

theorem stable_scanToken (eos : UInt8) (byteTable : UInt8 → UInt8) (hash : UInt64)
    (name : List UInt8) : Stable (scanToken eos byteTable hash name) := by
  intro x y hneed
  induction x generalizing hash name with
  | nil => exact absurd rfl hneed
  | cons c x ih =>
    rw [cons_append, scanToken, scanToken]
    rw [scanToken] at hneed
    by_cases heos : c = eos
    · rw [if_pos heos, if_pos heos]
      rfl
    rw [if_neg heos] at hneed
    rw [if_neg heos, if_neg heos]
    by_cases hfold : byteTable c = 0
    · rw [if_pos hfold, if_pos hfold]
      rfl
    rw [if_neg hfold] at hneed
    rw [if_neg hfold, if_neg hfold]
    exact ih _ _ hneed

/-- A name ends before `eos`, which is left. -/
theorem scanToken_ok {eos : UInt8} {byteTable : UInt8 → UInt8} {hash : UInt64}
    {name x rest : List UInt8} {value : UInt64 × List UInt8}
    (h : scanToken eos byteTable hash name x = .ok value rest) :
    rest <:+ x ∧ ∃ tail, rest = eos :: tail := by
  induction x generalizing hash name with
  | nil => cases h
  | cons c x ih =>
    rw [scanToken] at h
    split at h
    · next heos =>
      cases h
      exact ⟨suffix_refl _, x, by rw [heos]⟩
    split at h
    · cases h
    · obtain ⟨hsuffix, htail⟩ := ih h
      exact ⟨hsuffix.trans (suffix_cons c x), htail⟩

theorem stable_lookupToken (eos : UInt8) (byteTable : UInt8 → UInt8) (table : HeaderTable) :
    Stable (lookupToken eos byteTable table) := by
  intro x y hneed
  have hscan := stable_scanToken eos byteTable fnvBasis [] x y
  unfold lookupToken at hneed ⊢
  cases hx : scanToken eos byteTable fnvBasis [] x with
  | needMoreData =>
    rw [hx] at hneed
    exact absurd rfl hneed
  | error =>
    rw [hx] at hscan
    rw [hscan nofun]
    rfl
  | ok value rest =>
    rw [hx] at hscan
    rw [hscan nofun]
    obtain ⟨hash, name⟩ := value
    dsimp only [Scan.extend]
    split
    · rfl
    · generalize table.entries[slotOf table hash]?.getD emptyEntry = entry
      cases entry.name with
      | none => rfl
      | some entryName =>
        dsimp only
        split
        · rfl
        · rfl

theorem lookupToken_ok {eos : UInt8} {byteTable : UInt8 → UInt8} {table : HeaderTable}
    {x rest : List UInt8} {value : Int × List UInt8}
    (h : lookupToken eos byteTable table x = .ok value rest) :
    rest <:+ x ∧ ∃ tail, rest = eos :: tail := by
  unfold lookupToken at h
  split at h
  · cases h
  · cases h
  next hash name rest' hscan =>
  have hok := scanToken_ok hscan
  split at h
  · cases h
  dsimp only at h
  split at h
  · cases h
    exact hok
  · split at h
    · cases h
      exact hok
    · cases h
      exact hok

theorem stable_finishHeaderLine (framing : Framing) (header : HeaderLine) :
    Stable (finishHeaderLine framing header) :=
  .ite (.ite stable_error (stable_ok _)) (stable_ok _)

theorem leaves_finishHeaderLine (framing : Framing) (header : HeaderLine) :
    Leaves (finishHeaderLine framing header) :=
  .ite (.ite leaves_error (leaves_ok _)) (leaves_ok _)

theorem stable_parseHeaderValue (framing : Framing) (token : Int) (name : List UInt8) :
    Stable (parseHeaderValue framing token name) :=
  .ite
    ((stable_readDec.withText leaves_readDec).bind fun _ =>
      .ite stable_error (stable_finishHeaderLine _ _))
    ((stable_readUntilCRLF.withText leaves_readUntilCRLF).bind fun _ => stable_finishHeaderLine _ _)

theorem leaves_parseHeaderValue (framing : Framing) (token : Int) (name : List UInt8) :
    Leaves (parseHeaderValue framing token name) :=
  .ite
    (leaves_readDec.withText.bind fun _ => .ite leaves_error (leaves_finishHeaderLine _ _))
    (leaves_readUntilCRLF.withText.bind fun _ => leaves_finishHeaderLine _ _)

/-- What is skipped before a value: the colon and blanks. -/
theorem stableBefore_skipColon : StableBefore fun p : List UInt8 => skipOWS (p.drop 1) := by
  intro x y hneed hend
  cases x with
  | nil => exact absurd rfl (hend ())
  | cons c x => exact stableBefore_skip isOWS x y hneed hend

theorem parseHeaderValue_nil (framing : Framing) (token : Int) (name : List UInt8) :
    parseHeaderValue framing token name [] = .needMoreData := by
  unfold parseHeaderValue
  split
  · rfl
  · rfl

theorem stable_parseHeaderLine (framing : Framing) (table : HeaderTable) :
    Stable (parseHeaderLine framing table) :=
  (stable_lookupToken 58 httpTokenFoldTable table).bind fun value =>
    stableBefore_skipColon.bind (fun _ => stable_parseHeaderValue framing value.1 value.2) fun _ =>
      parseHeaderValue_nil framing value.1 value.2

theorem shortens_parseHeaderLine (framing : Framing) (table : HeaderTable) :
    Shortens (parseHeaderLine framing table) := by
  intro x value rest h
  unfold parseHeaderLine at h
  cases hlookup : httpHeaderTableLookup table x with
  | needMoreData =>
    rw [hlookup] at h
    cases h
  | error =>
    rw [hlookup] at h
    cases h
  | ok token p =>
    rw [hlookup] at h
    obtain ⟨hsuffix, tail, rfl⟩ := lookupToken_ok hlookup
    have hrest := leaves_parseHeaderValue _ _ _ _ _ _ h
    have htail := hrest.trans (dropWhile_suffix _)
    rw [drop_succ_cons, drop_zero] at htail
    have hlt := hsuffix.length_le
    rw [length_cons] at hlt
    exact ⟨(htail.trans (suffix_cons _ _)).trans hsuffix, Nat.lt_of_le_of_lt htail.length_le hlt⟩

end Http

end Asyncio
