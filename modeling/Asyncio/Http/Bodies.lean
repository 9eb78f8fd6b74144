import Asyncio.Http.Lines
import Asyncio.Incremental.Parser

/-!
# Headers and bodies that arrive in pieces

What the parsers of requests and responses share: the scanners of a header and of a trailer, and the data
of a body. The data is delivered as it arrives, so a step that needs more leaves nothing behind, and what
is compared is all the data of a body together.
-/

namespace Asyncio

namespace Http

open Incremental List

/-- `ParserResultTy` of a call that does not need more. -/
inductive ParserResult
  | ok | error | cancelled
  deriving DecidableEq

/-! ### Lines -/

theorem leaves_skipSPCharacters : Leaves skipSPCharacters := by
  intro x value rest h
  cases x with
  | nil => cases h
  | cons c s =>
    unfold skipSPCharacters at h
    dsimp only at h
    split at h
    · cases h
    · exact leaves_skip _ _ _ _ h

/-- The end of the headers, or a header. -/
def scanHeader (framing : Framing) (table : HeaderTable) (input : List UInt8) :
    Scan UInt8 (Option (Framing × HeaderLine)) :=
  if input.length < 2 then .needMoreData
  else if input.take 2 = crlf then .ok none (input.drop 2)
  else (parseHeaderLine framing table input).bind fun line rest => .ok (some line) rest

/-- The end of the trailers, or a trailer. -/
def scanTrailer (input : List UInt8) : Scan UInt8 Bool :=
  if 2 ≤ input.length ∧ input.take 2 = crlf then .ok true (input.drop 2)
  else (readUntilCRLF input).bind fun _ rest => .ok false rest

theorem stable_scanHeader (framing : Framing) (table : HeaderTable) :
    Stable (scanHeader framing table) := by
  intro x y hneed
  unfold scanHeader at hneed ⊢
  by_cases hshort : x.length < 2
  · rw [if_pos hshort] at hneed
    exact absurd rfl hneed
  have hlong : ¬ (x ++ y).length < 2 := by
    rw [length_append]
    omega
  rw [if_neg hshort] at hneed
  rw [if_neg hshort, if_neg hlong, take_append_of_le_length (by omega),
    drop_append_of_le_length (by omega)]
  by_cases hcrlf : x.take 2 = crlf
  · rw [if_pos hcrlf, if_pos hcrlf]
    rfl
  · rw [if_neg hcrlf] at hneed
    rw [if_neg hcrlf, if_neg hcrlf]
    exact (stable_parseHeaderLine framing table).bind (fun _ => stable_ok _) x y hneed

theorem shortens_scanHeader (framing : Framing) (table : HeaderTable) :
    Shortens (scanHeader framing table) := by
  intro x value rest h
  unfold scanHeader at h
  split at h
  · cases h
  split at h
  · cases h
    refine ⟨drop_suffix 2 x, ?_⟩
    rw [length_drop]
    omega
  · exact (shortens_parseHeaderLine framing table).bind (fun _ => leaves_ok _) x value rest h

theorem stable_scanTrailer : Stable scanTrailer := by
  intro x y hneed
  have hline := stable_readUntilCRLF.bind (fun _ => stable_ok false) x y
  unfold scanTrailer at hneed ⊢
  by_cases hcrlf : 2 ≤ x.length ∧ x.take 2 = crlf
  · have hlong : 2 ≤ (x ++ y).length := by
      rw [length_append]
      omega
    rw [take_append_of_le_length hcrlf.1, drop_append_of_le_length hcrlf.1, if_pos hcrlf,
      if_pos ⟨hlong, hcrlf.2⟩]
    rfl
  rw [if_neg hcrlf] at hneed
  rw [if_neg hcrlf, if_neg]
  · exact hline hneed
  rintro ⟨-, htake⟩
  match x with
  | [] => exact hneed rfl
  | [c] =>
    -- a CR alone is not decided
    obtain rfl : c = 13 := by
      rw [singleton_append, take_succ_cons] at htake
      exact (List.cons.inj htake).1
    exact hneed rfl
  | c :: d :: x =>
    refine hcrlf ⟨by simp, ?_⟩
    rw [cons_append, cons_append] at htake
    exact htake

theorem shortens_readUntilCRLF : Shortens readUntilCRLF := by
  intro x value rest h
  refine ⟨leaves_readUntilCRLF x value rest h, ?_⟩
  unfold readUntilCRLF at h
  split at h
  · cases h
  split at h
  · next c d tail hdrop =>
    split at h
    · cases h
    · cases h
      have hle : (c :: d :: rest).length ≤ x.length :=
        (hdrop ▸ dropWhile_suffix _ : c :: d :: rest <:+ x).length_le
      simp only [length_cons] at hle
      omega
  · cases h

theorem shortens_scanTrailer : Shortens scanTrailer := by
  intro x value rest h
  unfold scanTrailer at h
  split at h
  · next hcrlf =>
    cases h
    refine ⟨drop_suffix 2 x, ?_⟩
    rw [length_drop]
    omega
  · exact shortens_readUntilCRLF.bind (fun _ => leaves_ok _) x value rest h

/-! ### Steps of the parsers -/

section Steps

variable {σ ε ω : Type} {step : σ → List UInt8 → Step σ UInt8 ε ParserResult}
  {view : List ε → List ω} {state : Framing → σ} {fragment : List UInt8 → ε} {byte : UInt8 → ω}
  {framing : Framing}

/-- A turn of the loop over the headers; `ended` comes after the empty line. -/
theorem resumableAt_headerLine (state : Framing → σ) (ended : List UInt8 → Step σ UInt8 ε ParserResult)
    {table : HeaderTable} {entry : HeaderLine → ε} (hnil : view [] = []) (hstep : ∀ input, step (state framing) input =
      if input.length < 2 then .need (state framing) input []
      else if input.take 2 = crlf then ended (input.drop 2)
      else
        match parseHeaderLine framing table input with
        | .needMoreData => .need (state framing) input []
        | .error => .stop .error (state framing) input []
        | .ok (framing, line) rest => .next (state framing) rest [entry line])
    (hended : Follows ended) : ResumableAt step view (state framing) := by
  refine .of_scan hnil .error
    (k := fun line rest =>
      match line with
      | none => ended rest
      | some (framing, line) => .next (state framing) rest [entry line])
    (fun input => ?_) (stable_scanHeader framing table) (shortens_scanHeader _ _) fun line => ?_
  · rw [hstep, scanHeader]
    split
    · rfl
    split
    · rfl
    · cases parseHeaderLine framing table input with
      | needMoreData => rfl
      | error => rfl
      | ok value rest => rfl
  · cases line with
    | none => exact hended
    | some line => exact .inl ⟨_, _, fun _ => rfl⟩

/-- A turn of the loop over the trailers. -/
theorem resumableAt_trailerLine {x last : σ} {out : List ε} (hnil : view [] = [])
    (hstep : ∀ input, step x input =
      if 2 ≤ input.length ∧ input.take 2 = crlf then .stop .ok last (input.drop 2) out
      else
        match readUntilCRLF input with
        | .needMoreData => .need x input []
        | .error => .stop .error x input []
        | .ok _ rest => .next x rest []) : ResumableAt step view x := by
  refine .of_scan hnil .error
    (k := fun ended rest => if ended then .stop .ok last rest out else .next x rest [])
    (fun input => ?_) stable_scanTrailer shortens_scanTrailer fun ended => ?_
  · rw [hstep, scanTrailer]
    split
    · rfl
    · cases readUntilCRLF input with
      | needMoreData => rfl
      | error => rfl
      | ok value rest => rfl
  · cases ended with
    | true => exact .inr ⟨_, _, _, fun _ => rfl⟩
    | false => exact .inl ⟨_, _, fun _ => rfl⟩

/-- The data of a chunk. -/
theorem resumableAt_chunkData
    (hview : ∀ data, view (if data = [] then [] else [fragment data]) = data.map byte)
    (hstep : ∀ framing : Framing, framing.chunked = true → framing.dataRemaining ≠ 0 → ∀ input,
      step (state framing) input =
        if framing.dataRemaining ≤ input.length then
          .next (state { framing with dataRemaining := 0, firstFragment := false })
            (input.drop framing.dataRemaining)
            (if input.take framing.dataRemaining = [] then []
            else [fragment (input.take framing.dataRemaining)])
        else
          .need (state { framing with dataRemaining := framing.dataRemaining - input.length }) []
            (if input = [] then [] else [fragment input]))
    (hchunked : framing.chunked = true) (hdata : framing.dataRemaining ≠ 0) :
    ResumableAt step view (state framing) := by
  refine .of_settles fun input => ?_
  have hself := hstep framing hchunked hdata
  by_cases hcomplete : framing.dataRemaining ≤ input.length
  · have hlt : (input.drop framing.dataRemaining).length < input.length := by
      rw [length_drop]
      omega
    have hnext (more : List UInt8) : step (state framing) (input ++ more) =
        .next (state { framing with dataRemaining := 0, firstFragment := false })
          (input.drop framing.dataRemaining ++ more)
          (if input.take framing.dataRemaining = [] then []
          else [fragment (input.take framing.dataRemaining)]) := by
      rw [hself, if_pos (by rw [length_append]; omega), take_append_of_le_length hcomplete,
        drop_append_of_le_length hcomplete]
    exact .next (drop_suffix _ input) hlt hnext
  refine .need nil_suffix ((hself input).trans (if_neg hcomplete)) fun more => ?_
  have hdata' : framing.dataRemaining - input.length ≠ 0 := by omega
  rw [hself, hstep { framing with dataRemaining := framing.dataRemaining - input.length }
      hchunked hdata']
  dsimp only
  rw [length_append, nil_append]
  by_cases hall : framing.dataRemaining ≤ input.length + more.length
  · rw [if_pos hall, if_pos (show framing.dataRemaining - input.length ≤ more.length by omega)]
    refine ⟨rfl, ?_, ?_⟩
    · rw [drop_append, drop_of_length_le (by omega), nil_append]
    · rw [hview, hview, hview, take_append, take_of_length_le (by omega), map_append]
  · rw [if_neg hall, if_neg (show ¬framing.dataRemaining - input.length ≤ more.length by omega)]
    refine ⟨?_, rfl, ?_⟩
    · rw [Nat.sub_sub]
    · rw [hview, hview, hview, map_append]

/-- A turn of the loop over the chunks. -/
theorem resumableAt_chunked (state trailer : Framing → σ) (hnil : view [] = [])
    (hview : ∀ data, view (if data = [] then [] else [fragment data]) = data.map byte)
    (hstep : ∀ framing : Framing, framing.chunked = true → ∀ input, step (state framing) input =
      match parseChunkedTurn framing input with
      | .fragment complete data framing rest =>
        let out := if data = [] then [] else [fragment data]
        if complete then .next (state framing) rest out else .need (state framing) rest out
      | .size framing rest => .next (state framing) rest []
      | .trailer rest => .next (trailer framing) rest []
      | .needMoreData => .need (state framing) input []
      | .error => .stop .error (state framing) input [])
    (hchunked : framing.chunked = true) : ResumableAt step view (state framing) := by
  by_cases hzero : framing.dataRemaining = 0
  · refine .of_scan hnil .error
      (k := fun size rest =>
        if size = 0 then .next (trailer framing) rest []
        else .next (state { framing with dataRemaining := size }) rest [])
      (fun input => ?_) (stable_readChunkSize framing.firstFragment) (shortens_readChunkSize _)
      fun size => ?_
    · rw [hstep framing hchunked, parseChunkedTurn, if_neg (not_not.mpr hzero)]
      cases readChunkSize framing.firstFragment input with
      | needMoreData => rfl
      | error => rfl
      | ok size rest =>
        dsimp only
        by_cases hsize : size = 0
        · rw [if_pos hsize, if_pos hsize]
        · rw [if_neg hsize, if_neg hsize]
    · by_cases hsize : size = 0
      · exact .inl ⟨_, _, fun _ => if_pos hsize⟩
      · exact .inl ⟨_, _, fun _ => if_neg hsize⟩
  · refine resumableAt_chunkData hview (fun framing hchunked hdata input => ?_) hchunked hzero
    rw [hstep framing hchunked, parseChunkedTurn, if_pos hdata]
    by_cases hcomplete : framing.dataRemaining ≤ input.length
    · rw [if_pos hcomplete, if_pos hcomplete]
      rfl
    · rw [if_neg hcomplete, if_neg hcomplete]
      rfl

/-- The data of a body of known length; `after` is what is left to come. -/
theorem resumableAt_fixedData (state done : Framing → σ) (after : Framing → ℕ → Framing)
    (last : Framing → List UInt8 → List ε) (hnil : view [] = []) (hview : ∀ data, view [fragment data] = data.map byte)
    (hstep : ∀ framing : Framing, framing.chunked = false → ∀ input, step (state framing) input =
        if framing.dataRemaining ≤ input.length then
          .stop .ok (done framing) (input.drop framing.dataRemaining)
            (last framing (input.take framing.dataRemaining))
        else if input = [] then .need (state framing) input []
        else .need (state (after framing input.length)) [] [fragment input])
    (hafter : ∀ framing m n, after (after framing m) n = after framing (m + n))
    (hframing : ∀ framing n, (after framing n).chunked = framing.chunked ∧
      (after framing n).dataRemaining = framing.dataRemaining - n) (hlast : ∀ framing data more,
      view (last framing (data ++ more)) = data.map byte ++ view (last (after framing data.length) more))
    (hchunked : framing.chunked = false) : ResumableAt step view (state framing) := by
  refine .of_settles fun input => ?_
  have hself := hstep framing hchunked
  by_cases hcomplete : framing.dataRemaining ≤ input.length
  · have hstop (more : List UInt8) : step (state framing) (input ++ more) =
        .stop .ok (done framing) (input.drop framing.dataRemaining ++ more)
          (last framing (input.take framing.dataRemaining)) := by
      rw [hself, if_pos (by rw [length_append]; omega), take_append_of_le_length hcomplete,
        drop_append_of_le_length hcomplete]
    exact .stop (drop_suffix framing.dataRemaining input) hstop
  have hneed := (hself input).trans (if_neg hcomplete)
  by_cases hinput : input = []
  · rw [if_pos hinput] at hneed
    exact .need (suffix_refl input) hneed fun more => .refl hnil _
  rw [if_neg hinput] at hneed
  refine .need nil_suffix hneed fun more => ?_
  obtain ⟨hchunked', hremaining⟩ := hframing framing input.length
  rw [hself, hstep (after framing input.length) (hchunked'.trans hchunked), hremaining,
    length_append, nil_append]
  by_cases hall : framing.dataRemaining ≤ input.length + more.length
  · rw [if_pos hall, if_pos (show framing.dataRemaining - input.length ≤ more.length by omega)]
    refine ⟨rfl, ?_, ?_⟩
    · rw [drop_append, drop_of_length_le (by omega), nil_append]
    · rw [hview, take_append, take_of_length_le (by omega), hlast]
  rw [if_neg hall, if_neg (show ¬framing.dataRemaining - input.length ≤ more.length by omega),
    if_neg (show input ++ more ≠ [] by simp [hinput])]
  by_cases hmore : more = []
  · rw [if_pos hmore, hmore, length_nil, Nat.add_zero, append_nil]
    exact ⟨rfl, rfl, by rw [hnil, append_nil]⟩
  · rw [if_neg hmore]
    refine ⟨?_, rfl, ?_⟩
    · rw [hafter]
    · rw [hview, hview, hview, map_append]

end Steps

end Http

end Asyncio
