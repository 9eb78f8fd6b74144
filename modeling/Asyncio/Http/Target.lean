import Asyncio.Http.Request
import Asyncio.Uri.QueryElements

/-!
# The query of a request

The query elements that `httpRequestParse` delivers are those that `uriParseQuery` delivers for the query
of the target, however the request is cut into pieces.

## Main results

* `query_elements_iff` — when the elements are the pairs of the query
-/

namespace Asyncio

namespace Http

open Computability Grammar Incremental Rfc3986 Uri List

/-- The name and the value of a query element. -/
def requestElementOf : RequestComponent → Option (List UInt8 × List UInt8)
  | .uriQueryElement data data2 => some (data, data2)
  | _ => none

/-- The query elements among what was delivered. -/
def requestElements (out : List RequestComponent) : List (List UInt8 × List UInt8) :=
  out.filterMap requestElementOf

theorem requestElements_append (out out' : List RequestComponent) :
    requestElements (out ++ out') = requestElements out ++ requestElements out' :=
  filterMap_append

/-- Among the atoms. -/
def atomElement : RequestAtom → Option (List UInt8 × List UInt8)
  | .component component => requestElementOf component
  | .byte _ | .last => none

theorem filterMap_atoms (out : List RequestComponent) :
    (requestAtoms out).filterMap atomElement = requestElements out := by
  have hbytes (bytes : List UInt8) :
      (bytes.map RequestAtom.byte).filterMap atomElement = [] := by
    rw [filterMap_map]
    exact filterMap_eq_nil_iff.mpr fun _ _ => rfl
  induction out with
  | nil => rfl
  | cons component out ih =>
    rw [requestAtoms, flatMap_cons, filterMap_append, ← requestAtoms, ih,
      ← singleton_append, requestElements_append]
    congr 1
    cases component with
    | data bytes => exact hbytes bytes
    | dataLast bytes =>
      rw [RequestComponent.atoms, filterMap_append, hbytes]
      rfl
    | method => rfl
    | uriPathElement => rfl
    | uriQueryElement => rfl
    | uriFragment => rfl
    | version => rfl
    | headerEntry => rfl

/-! ### After the query -/

/-- The query has been read. -/
def RequestStateTy.afterQuery : RequestStateTy → Bool
  | .method | .uriPath | .uriQuery => false
  | .uriFragment | .version | .header | .body | .last | .trailer => true

/-- A step after the query, which delivers no query elements. -/
def Quiet : RequestStep → Prop
  | .next state _ out | .need state _ out =>
    state.state.afterQuery = true ∧ requestElements out = []
  | .stop _ _ _ out => requestElements out = []

theorem Quiet.deliver {s : RequestStep} (h : Quiet s) {out : List RequestComponent}
    (hout : requestElements out = []) : Quiet (s.deliver out) := by
  have happend {out' : List RequestComponent} (h : requestElements out' = []) :
      requestElements (out ++ out') = [] := by
    rw [requestElements_append, hout, h]
    rfl
  cases s with
  | next => exact ⟨h.1, happend h.2⟩
  | need => exact ⟨h.1, happend h.2⟩
  | stop => exact happend h

theorem quiet_requestVersion (st : RequestState) (ptr : List UInt8) : Quiet (requestVersion st ptr) := by
  rw [requestVersion]
  split
  · exact ⟨rfl, rfl⟩
  split
  · exact rfl
  split
  · split
    · exact rfl
    · exact ⟨rfl, rfl⟩
  · exact ⟨rfl, rfl⟩

theorem quiet_requestTargetEnd (st : RequestState) {out : List RequestComponent}
    (hout : requestElements out = []) (ptr : List UInt8) : Quiet (requestTargetEnd st out ptr) := by
  rw [requestTargetEnd]
  split
  · exact ⟨rfl, hout⟩
  · exact hout
  · exact (quiet_requestVersion st _).deliver hout

theorem quiet_requestFragment (st : RequestState) (ptr : List UInt8) :
    Quiet (requestFragment st ptr) := by
  have hfragment (out : List UriComponent) : requestElements (out.filterMap fragmentCb) = [] := by
    rw [requestElements, filterMap_filterMap]
    refine filterMap_eq_nil_iff.mpr fun component _ => ?_
    cases component <;> rfl
  unfold requestFragment
  split
  · exact ⟨rfl, rfl⟩
  · split
    · split
      · exact ⟨rfl, rfl⟩
      · exact rfl
      · exact quiet_requestTargetEnd st (hfragment _) _
    · exact quiet_requestTargetEnd st rfl _

theorem requestElements_fragment (data : List UInt8) :
    requestElements (if data = [] then [] else [.data data]) = [] := by
  split
  · rfl
  · rfl

/-- After the query, no query elements are delivered. -/
theorem quiet_requestStep (table : Option HeaderTable) {st : RequestState}
    (hst : st.state.afterQuery = true) (input : List UInt8) : Quiet (requestStep table st input) := by
  obtain ⟨framing, state⟩ := st
  cases state with
  | method => cases hst
  | uriPath => cases hst
  | uriQuery => cases hst
  | uriFragment => exact quiet_requestFragment _ input
  | version => exact quiet_requestVersion _ input
  | header =>
    rw [requestStep, requestHeader]
    dsimp only
    split
    · exact ⟨rfl, rfl⟩
    split
    · split
      · exact rfl
      split
      · exact ⟨rfl, rfl⟩
      · exact rfl
    · split
      · exact ⟨rfl, rfl⟩
      · exact rfl
      · exact ⟨rfl, rfl⟩
  | body =>
    rw [requestStep, requestBody]
    dsimp only
    split
    · split
      · split
        · exact ⟨rfl, requestElements_fragment _⟩
        · exact ⟨rfl, requestElements_fragment _⟩
      · exact ⟨rfl, rfl⟩
      · exact ⟨rfl, rfl⟩
      · exact ⟨rfl, rfl⟩
      · exact rfl
    split
    · exact rfl
    split
    · exact ⟨rfl, rfl⟩
    · exact ⟨rfl, rfl⟩
  | trailer =>
    rw [requestStep, requestTrailer]
    dsimp only
    split
    · exact rfl
    split
    · exact ⟨rfl, rfl⟩
    · exact rfl
    · exact ⟨rfl, rfl⟩
  | last => exact rfl

theorem requestElements_parse (table : Option HeaderTable) {st : RequestState}
    (hst : st.state.afterQuery = true) (input : List UInt8) :
    requestElements (httpRequestParse table st input).out = [] := by
  have hkeeps := (resumable_requestStep table).keeps_parse
    (P := fun st out => st.state.afterQuery = true ∧ requestElements out = [])
    (Q := fun _ out => requestElements out = []) (fun st input out h => ?_)
    (show st.state.afterQuery = true ∧ requestElements [] = [] from ⟨hst, rfl⟩) input
  · rw [Outcome.Keeps] at hkeeps
    split at hkeeps
    · exact hkeeps.2
    · exact hkeeps
  · obtain ⟨hst, hout⟩ := h
    have hquiet := quiet_requestStep table hst input
    have happend {out' : List RequestComponent} (h : requestElements out' = []) :
        requestElements (out ++ out') = [] := by
      rw [requestElements_append, hout, h]
      rfl
    cases hstep : requestStep table st input with
    | next =>
      rw [hstep] at hquiet
      exact ⟨hquiet.1, happend hquiet.2⟩
    | need =>
      rw [hstep] at hquiet
      exact ⟨hquiet.1, happend hquiet.2⟩
    | stop =>
      rw [hstep] at hquiet
      exact happend hquiet

/-! ### Up to the query -/

theorem scanToken_method {m : List UInt8} (hm : ∀ c ∈ m, httpTokenCharTable c ≠ 0) (hash : UInt64)
    (name z : List UInt8) :
    ∃ hash', scanToken 32 httpTokenCharTable hash name (m ++ 32 :: z) = .ok (hash', name ++ m) (32 :: z) := by
  induction m generalizing hash name with
  | nil => exact ⟨hash, by rw [nil_append, scanToken, if_pos rfl, append_nil]⟩
  | cons c m ih =>
    obtain ⟨hc, hm⟩ := forall_mem_cons.mp hm
    have hblank : c ≠ 32 := by
      rintro rfl
      exact hc (by decide)
    obtain ⟨hash', hscan⟩ := ih hm (fnv hash (httpTokenCharTable c)) (name ++ [c])
    refine ⟨hash', ?_⟩
    rw [cons_append, scanToken, if_neg hblank, if_neg hc, hscan, append_assoc, singleton_append]

/-- A method that ends with a blank is recognised or not, but read. -/
theorem httpMethodLookup_append {m : List UInt8} (hne : m ≠ [])
    (hm : ∀ c ∈ m, httpTokenCharTable c ≠ 0) (z : List UInt8) :
    ∃ token, httpMethodLookup (m ++ 32 :: z) = .ok (token, m) (32 :: z) := by
  obtain ⟨hash, hscan⟩ := scanToken_method hm fnvBasis [] z
  rw [httpMethodLookup, lookupToken, hscan]
  dsimp only
  rw [nil_append, if_neg fun h => hne (eq_nil_of_length_eq_zero h)]
  split
  · exact ⟨0, rfl⟩
  split
  · exact ⟨_, rfl⟩
  · exact ⟨0, rfl⟩

variable {c : UInt8}

/-- What a span begins with. -/
theorem head_of_mem_escapable {ok : UInt8 → Bool} {x : List UInt8}
    (hx : c :: x ∈ (escapable ok)∗) : ok c = true ∨ c = 37 := by
  refine kstar_induction (P := fun y => y = c :: x → ok c = true ∨ c = 37) nofun ?_ hx rfl
  intro word hword y _ _ heq
  obtain ⟨d, hd, rfl⟩ | hescaped := hword
  · rw [← (List.cons.inj heq).1]
    exact .inl hd
  · obtain ⟨a, b, -, -, rfl⟩ := mem_pctEncoded.mp hescaped
    exact .inr (List.cons.inj heq).1.symm

/-- A byte that ends a part of a URI for good. -/
theorem not_undecided (hc : c ≠ 37) (p : List UInt8) : undecided false (c :: p) = false := by
  simp [undecided, midEscape, consumePctEncoded, hc]

/-- A part of a URI that ends before `c`. -/
theorem span_before {ok : UInt8 → Bool} (hok : ok 37 = false) {x : List UInt8}
    (hx : x ∈ (escapable ok)∗) (hc : ok c = false) (hpercent : c ≠ 37) (p : List UInt8) :
    span (charZ ok) (x ++ c :: p) = (x, c :: p) :=
  (reads_charZ hok).span_append hx (charZ_of_not hc hpercent p)

/-- A request with a query: `c` is the blank after the target, or the mark of a fragment. -/
theorem requestPath_query (st : RequestState) {x q : List UInt8} (hx : x ∈ pathChar∗) (hq : q ∈ query)
    (hc : c = 32 ∨ c = 35) (p : List UInt8) :
    requestPath st (x ++ 63 :: (q ++ c :: p)) =
      ((requestFragment st (c :: p)).deliver ((queryOut q).filterMap queryCb)).deliver
        ((pathOut x).filterMap pathCb) := by
  rw [pathChar_eq] at hx
  rw [query, queryChar_eq] at hq
  have hblanks : skipBlanks (x ++ 63 :: (q ++ c :: p)) = x ++ 63 :: (q ++ c :: p) := by
    cases x with
    | nil => rfl
    | cons d x =>
      refine dropWhile_cons_of_neg ?_
      rw [decide_eq_true_iff]
      rintro rfl
      obtain h | h := head_of_mem_escapable hx
      · exact absurd h (by decide)
      · exact absurd h (by decide)
  have hend : isQueryChar c = false ∧ c ≠ 37 := by
    rcases hc with rfl | rfl
    · decide
    · decide
  rw [requestPath, hblanks, uriParsePath_eq, span_before (by decide) hx (by decide) (by decide),
    not_undecided (by decide)]
  show (requestQuery st (q ++ c :: p)).deliver _ = _
  rw [requestQuery, uriParseQuery_eq, span_before (by decide) hq hend.1 hend.2, not_undecided hend.2]
  rfl

/-- The elements of a query, among the components of a request. -/
theorem requestElements_queryCb (out : List UriComponent) :
    requestElements (out.filterMap queryCb) = elementsOf out := by
  rw [requestElements, filterMap_filterMap, elementsOf]
  congr 1
  funext component
  cases component <;> rfl

theorem requestElements_pathCb (out : List UriComponent) :
    requestElements (out.filterMap pathCb) = [] := by
  rw [requestElements, filterMap_filterMap]
  refine filterMap_eq_nil_iff.mpr fun component _ => ?_
  cases component <;> rfl

/-- **The query elements of a request.** -/
theorem requestElements_request (table : Option HeaderTable) {m x q : List UInt8} (hne : m ≠ [])
    (hm : ∀ c ∈ m, httpTokenCharTable c ≠ 0) (hx : x ∈ pathChar∗) (hq : q ∈ query)
    (hc : c = 32 ∨ c = 35) (p : List UInt8) :
    requestElements (httpRequestParse table httpRequestParserInit
      (m ++ 32 :: (x ++ 63 :: (q ++ c :: p)))).out = lastPairs q := by
  obtain ⟨token, hlookup⟩ := httpMethodLookup_append hne hm (x ++ 63 :: (q ++ c :: p))
  have hpath := requestPath_query httpRequestParserInit hx hq hc p
  have hstep : requestStep table httpRequestParserInit (m ++ 32 :: (x ++ 63 :: (q ++ c :: p))) =
      (requestFragment httpRequestParserInit (c :: p)).deliver
        ([.method token] ++ (pathOut x).filterMap pathCb ++ (queryOut q).filterMap queryCb) := by
    have hblank : skipBlanks (32 :: (x ++ 63 :: (q ++ c :: p))) =
      skipBlanks (x ++ 63 :: (q ++ c :: p)) := rfl
    have hskip := requestPath_append httpRequestParserInit (x ++ 63 :: (q ++ c :: p)) []
    rw [append_nil, append_nil, hpath] at hskip
    show requestMethod httpRequestParserInit _ = _
    rw [requestMethod, hlookup]
    show (requestPath httpRequestParserInit (skipBlanks (32 :: (x ++ 63 :: (q ++ c :: p))))).deliver _ = _
    rw [hblank, hskip]
    cases requestFragment httpRequestParserInit (c :: p) <;> simp [Step.deliver]
  have hquiet := quiet_requestFragment httpRequestParserInit (c :: p)
  have hout (out : List RequestComponent) (h : requestElements out = []) :
      requestElements ([.method token] ++ (pathOut x).filterMap pathCb ++
        (queryOut q).filterMap queryCb ++ out) = lastPairs q := by
    rw [requestElements_append, requestElements_append, requestElements_append, h,
      requestElements_pathCb, requestElements_queryCb, elementsOf_queryOut, append_nil]
    rfl
  rw [httpRequestParse, (resumable_requestStep table).parse_eq, hstep]
  cases hfragment : requestFragment httpRequestParserInit (c :: p) with
  | next state rest out =>
    rw [hfragment] at hquiet
    have hrest := requestElements_parse table hquiet.1 rest
    show requestElements (_ ++ out ++ (httpRequestParse table state rest).out) = _
    rw [append_assoc]
    refine hout _ ?_
    rw [requestElements_append, hquiet.2, hrest]
    rfl
  | need state rest out =>
    rw [hfragment] at hquiet
    exact hout out hquiet.2
  | stop result state rest out =>
    rw [hfragment] at hquiet
    exact hout out hquiet

/-- **Query elements are the pairs of the query**, if no piece of it has two `=`, and only then: for
`uriParseQuery`, and for a request that arrives in any pieces. -/
theorem query_elements_iff (q : List UInt8) (hq : q ∈ query) :
    (∃ out, uriParseQuery true q = .ok out []) ∧
      (∀ uriOnly t out, uriParseQuery uriOnly (q ++ t) = .ok out t →
        (elementsOf out = pairs q ↔ ∀ piece ∈ q.splitOn 38, piece.count 61 ≤ 1)) ∧
      ∀ table m x c p piece pieces, m ≠ [] → (∀ c ∈ m, httpTokenCharTable c ≠ 0) → x ∈ pathChar∗ →
        c = 32 ∨ c = 35 → (piece :: pieces).flatten = m ++ 32 :: (x ++ 63 :: (q ++ c :: p)) →
        (requestElements (httpRequestFeed table httpRequestParserInit (piece :: pieces)).out = pairs q ↔
          ∀ piece ∈ q.splitOn 38, piece.count 61 ≤ 1) := by
  have hstar : q ∈ (escapable isQueryChar)∗ := by
    rw [← queryChar_eq]
    exact hq
  have hreads : Reads (charZ isQueryChar) (escapable isQueryChar) := reads_charZ (by decide)
  refine ⟨⟨queryOut q, ?_⟩, fun uriOnly t out h => ?_, fun table m x c p piece pieces hne hm hx hc heq => ?_⟩
  · have hspan : span (charZ isQueryChar) (q ++ []) = (q, []) := hreads.span_append hstar rfl
    rw [append_nil] at hspan
    rw [uriParseQuery_eq, hspan]
    rfl
  · rw [uriParseQuery_eq] at h
    split at h
    · cases h
    obtain ⟨rfl, hrest⟩ := Scan.ok.inj h
    obtain ⟨-, happend, -⟩ := hreads.span_spec (q ++ t)
    rw [hrest] at happend
    rw [append_cancel_right happend, elementsOf_queryOut]
    exact lastPairs_eq_iff q
  · obtain ⟨-, -, hatoms⟩ := request_feed_eq_parse table httpRequestParserInit piece pieces
    rw [heq] at hatoms
    rw [← filterMap_atoms, hatoms, filterMap_atoms, requestElements_request table hne hm hx hq hc p]
    exact lastPairs_eq_iff q

/-- The padding of a value ends its name. -/
theorem padding_in_name :
    uriParseQuery true (chars "a=YQ==") =
        .ok [.queryElement (chars "a=YQ=") [], .query (chars "a=YQ==")] [] ∧
      pairs (chars "a=YQ==") = [(chars "a", chars "YQ==")] ∧
      requestElements (httpRequestParse none httpRequestParserInit
        (chars "GET /?a=YQ== HTTP/1.1")).out = [(chars "a=YQ=", [])] := by
  decide +kernel

theorem query_elements_two_pairs :
    ∃ out, uriParseQuery true (chars "a=b&c&d=e") = .ok out [] ∧
      elementsOf out = [(chars "a", chars "b"), (chars "d", chars "e")] := by
  have hq : chars "a=b&c&d=e" ∈ query := by
    rw [query, queryChar_eq]
    exact mem_escapable_of_forall (all_eq_true.mp (by decide))
  obtain ⟨⟨out, hout⟩, hiff, -⟩ := query_elements_iff (chars "a=b&c&d=e") hq
  refine ⟨out, hout, ?_⟩
  have hpairs := (hiff true [] out (by rw [append_nil]; exact hout)).mpr (by decide)
  rw [hpairs]
  decide

end Http

end Asyncio
