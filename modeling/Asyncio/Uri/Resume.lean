import Asyncio.Uri.Spans

/-!
# Parts of a URI that arrive in pieces

`uriParsePath` and `uriParseQuery` deliver an element when the next one begins, and move `*ptr` there. If
they need more, they are called again with the bytes from `*ptr` on. An element that was delivered is not
delivered again, because a call that begins at the mark of an element comes to the state where the one
before it stopped.

## Main results

* `resumes_uriParsePath`, `resumes_uriParseQuery` — two calls deliver what one call delivers
-/

namespace Asyncio

namespace Uri

open Computability Grammar Incremental Rfc3986 List

/-! ### Spans with more behind -/

section More

variable {ok : UInt8 → Bool}

theorem midEscape_of_hex {a : UInt8} (ha : isHexDigit a = true) : midEscape [37, a] = true := by
  simp [midEscape, consumePctEncoded, ha]

/-- What ended a span ends it with more behind, too. -/
theorem charZ_append {t : List UInt8} (hne : t ≠ []) (hnone : charZ ok t = none)
    (hmid : midEscape t = false) (more : List UInt8) : charZ ok (t ++ more) = none := by
  cases t with
  | nil => exact absurd rfl hne
  | cons c p =>
    rw [charZ] at hnone
    split at hnone
    · cases hnone
    next hc =>
    rw [cons_append, charZ, if_neg hc]
    cases hsome : consumePctEncodedZ (c :: (p ++ more)) with
    | none => rfl
    | some rest =>
      obtain ⟨a, b, ha, hb, heq⟩ := consumePctEncodedZ_eq_some hsome
      obtain ⟨rfl, htail⟩ := List.cons.inj heq
      obtain _ | ⟨a', _ | ⟨b', p⟩⟩ := p
      · cases hmid
      · obtain ⟨rfl, -⟩ := List.cons.inj htail
        rw [midEscape_of_hex ha] at hmid
        cases hmid
      · obtain ⟨rfl, hlast⟩ := List.cons.inj htail
        obtain ⟨rfl, -⟩ := List.cons.inj hlast
        rw [consumePctEncodedZ_of_hex ha hb] at hnone
        cases hnone

/-- A parser of a part of a URI, by the span that it reads. -/
def ReadsSpan (ok : UInt8 → Bool) (out : List UInt8 → List UriComponent)
    (f : List UInt8 → Scan UInt8 (List UriComponent)) : Prop :=
  ∀ p, f p = if undecided false (span (charZ ok) p).2 then .needMoreData
    else .ok (out (span (charZ ok) p).1) (span (charZ ok) p).2

variable {out : List UInt8 → List UriComponent} {f : List UInt8 → Scan UInt8 (List UriComponent)}

theorem ReadsSpan.stable (hok : ok 37 = false) (hf : ReadsSpan ok out f) : Stable f := by
  intro p more hneed
  have hreads := reads_charZ hok
  obtain ⟨hstar, happend, hnone⟩ := hreads.span_spec p
  rw [hf p] at hneed ⊢
  split at hneed
  · exact absurd rfl hneed
  next hdecided =>
  rw [Bool.not_eq_true, undecided, Bool.or_eq_false_iff] at hdecided
  obtain ⟨hmid, hnil⟩ := hdecided
  have hne : (span (charZ ok) p).2 ≠ [] := by
    intro heq
    rw [heq] at hnil
    cases hnil
  have hspan : span (charZ ok) (p ++ more) = ((span (charZ ok) p).1, (span (charZ ok) p).2 ++ more) := by
    have hspan := hreads.span_append hstar (charZ_append hne hnone hmid more)
    rwa [← append_assoc, happend] at hspan
  have hmid' : midEscape ((span (charZ ok) p).2 ++ more) = false := by
    rw [← Bool.not_eq_true]
    intro hlong
    -- the middle of an escaped byte is the middle of one without its last byte, too
    obtain ⟨front, heq, hfront⟩ := eq_of_midEscape hlong
    obtain ⟨c, t, ht⟩ := exists_cons_of_ne_nil hne
    rw [ht] at heq hmid
    obtain ⟨rfl, htail⟩ := List.cons.inj heq
    obtain rfl | ⟨a, ha, rfl⟩ := hfront
    · rw [(append_eq_nil_iff.mp htail).1] at hmid
      cases hmid
    · cases t with
      | nil => cases hmid
      | cons a' t =>
        obtain ⟨rfl, hnil'⟩ := List.cons.inj htail
        rw [(append_eq_nil_iff.mp hnil').1, midEscape_of_hex ha] at hmid
        cases hmid
  have hundecided : undecided false ((span (charZ ok) p).2 ++ more) = false := by
    rw [undecided, hmid', Bool.false_or, Bool.and_eq_false_iff, decide_eq_false_iff_not]
    exact .inl fun heq => hne (append_eq_nil_iff.mp heq).1
  rw [hf (p ++ more), hspan, hundecided, undecided, hmid, hnil]
  rfl

theorem ReadsSpan.leaves (hok : ok 37 = false) (hf : ReadsSpan ok out f) : Leaves f := by
  intro p value rest h
  rw [hf p] at h
  split at h
  · cases h
  · cases h
    exact ⟨_, ((reads_charZ hok).span_spec p).2.1⟩

/-- A call that does not need more stops at something. -/
theorem ReadsSpan.rest_ne_nil (hf : ReadsSpan ok out f) {p rest : List UInt8}
    {value : List UriComponent} (h : f p = .ok value rest) : rest ≠ [] := by
  rw [hf p] at h
  split at h
  · cases h
  next hdecided =>
  cases h
  intro heq
  rw [heq] at hdecided
  exact hdecided rfl

end More

/-! ### Loops that may begin again -/

variable {ok : UInt8 → Bool}

/-- What begins with a byte that is not a digit is not cut out of an escaped byte. -/
theorem mem_escapable_suffix {u v : List UInt8} {c : UInt8}
    (hc : isHexDigit c = false) (hx : u ++ c :: v ∈ (escapable ok)∗) : c :: v ∈ (escapable ok)∗ := by
  refine kstar_induction (P := fun x => ∀ u, x = u ++ c :: v → c :: v ∈ (escapable ok)∗) ?_ ?_ hx u rfl
  · intro u heq
    exact absurd (append_eq_nil_iff.mp heq.symm).2 (cons_ne_nil _ _)
  · intro word hword y hy ih u heq
    have hall := append_mem_kstar hword hy
    match u with
    | [] =>
      rw [heq] at hall
      exact hall
    | d :: u =>
      obtain ⟨d', -, rfl⟩ | hescaped := hword
      · exact ih u (List.cons.inj heq).2
      obtain ⟨a, b, ha, hb, rfl⟩ := mem_pctEncoded.mp hescaped
      have htail := (List.cons.inj heq).2
      match u with
      | [] => exact absurd (List.cons.inj htail).1 (isHexDigit_ne ha hc)
      | [_] => exact absurd (List.cons.inj (List.cons.inj htail).2).1 (isHexDigit_ne hb hc)
      | _ :: _ :: u => exact ih u (List.cons.inj (List.cons.inj htail).2).2

/-- A loop that moves `*ptr` to a `mark` when it delivers something. From there on, the loop that goes on
is `behind` the one that begins again: it has delivered something before. -/
structure Restarts {σ : Type} (mark : UInt8) (plain : σ → UInt8 → σ) (start : σ)
    (since : σ → List UInt8) (out : σ → List UriComponent)
    (behind : List UriComponent → σ → σ → Prop) : Prop where
  start_since : since start = []
  start_behind : behind (out start) start start
  step : ∀ {o st st'} c, behind o st st' → behind o (plain st c) (plain st' c)
  keep : ∀ st c, c ≠ mark → since (plain st c) = since st ++ [c] ∧ out (plain st c) = out st
  mark : ∀ st, (since (plain st mark) = since st ++ [mark] ∧ out (plain st mark) = out st) ∨
    (since (plain st mark) = [mark] ∧
      behind (out (plain st mark)) (plain st mark) (plain start mark))

namespace Restarts

variable {σ : Type} {mark : UInt8} {plain : σ → UInt8 → σ} {start : σ} {since : σ → List UInt8}
  {out : σ → List UriComponent} {behind : List UriComponent → σ → σ → Prop}
  (h : Restarts mark plain start since out behind)

include h

/-- A byte is added, or it is the mark of a new beginning. -/
theorem plain_cases (st : σ) (c : UInt8) :
    (since (plain st c) = since st ++ [c] ∧ out (plain st c) = out st) ∨
      (c = mark ∧ since (plain st mark) = [mark] ∧
        behind (out (plain st mark)) (plain st mark) (plain start mark)) := by
  by_cases hc : c = mark
  · subst hc
    obtain hkeep | hmark := h.mark st
    · exact .inl hkeep
    · exact .inr ⟨rfl, hmark⟩
  · exact .inl (h.keep st c hc)

theorem foldl_behind (x : List UInt8) :
    behind (out (x.foldl plain start)) (x.foldl plain start)
      ((since (x.foldl plain start)).foldl plain start) := by
  induction x using List.reverseRecOn with
  | nil =>
    rw [foldl_nil, h.start_since]
    exact h.start_behind
  | append_singleton x c ih =>
    rw [foldl_append, foldl_cons, foldl_nil]
    obtain ⟨hsince, hout⟩ | ⟨rfl, hsince, hbehind⟩ := h.plain_cases (x.foldl plain start) c
    · rw [hsince, hout, foldl_append, foldl_cons, foldl_nil]
      exact h.step c ih
    · rw [hsince]
      exact hbehind

/-- With more behind. -/
theorem append_behind (x y : List UInt8) :
    behind (out (x.foldl plain start)) ((x ++ y).foldl plain start)
      ((since (x.foldl plain start) ++ y).foldl plain start) := by
  have hstart := h.foldl_behind x
  rw [foldl_append, foldl_append]
  revert hstart
  generalize x.foldl plain start = st
  generalize (since st).foldl plain start = st'
  generalize out st = o
  intro hstart
  induction y generalizing st st' with
  | nil => exact hstart
  | cons c y ih => exact ih (plain st c) (plain st' c) (h.step c hstart)

theorem since_cases (x : List UInt8) :
    since (x.foldl plain start) = x ∨
      ∃ u v, x = u ++ mark :: v ∧ since (x.foldl plain start) = mark :: v := by
  induction x using List.reverseRecOn with
  | nil => exact .inl h.start_since
  | append_singleton x c ih =>
    rw [foldl_append, foldl_cons, foldl_nil]
    obtain ⟨hsince, -⟩ | ⟨rfl, hsince, -⟩ := h.plain_cases (x.foldl plain start) c
    · rw [hsince]
      obtain hall | ⟨u, v, hx, hv⟩ := ih
      · exact .inl (by rw [hall])
      · refine .inr ⟨u, v ++ [c], ?_, ?_⟩
        · rw [hx, append_assoc, cons_append]
        · rw [hv, cons_append]
    · exact .inr ⟨x, [], rfl, hsince⟩

/-- What is left is a span. -/
theorem span_since (hok : ok 37 = false) (hmark : isHexDigit mark = false)
    {x : List UInt8} (hx : x ∈ (escapable ok)∗) (z : List UInt8) :
    span (charZ ok) (since (x.foldl plain start) ++ z) =
      (since (x.foldl plain start) ++ (span (charZ ok) z).1, (span (charZ ok) z).2) := by
  refine (reads_charZ hok).span_star ?_ z
  obtain hall | ⟨u, v, rfl, hv⟩ := h.since_cases x
  · rw [hall]
    exact hx
  · rw [hv]
    exact mem_escapable_suffix hmark hx

/-- The bytes from `*ptr` on are all the bytes, or they begin with a mark. -/
theorem held_cases (hok : ok 37 = false) (p : List UInt8) :
    since ((span (charZ ok) p).1.foldl plain start) ++ (span (charZ ok) p).2 = p ∨
      ∃ u v, p = u ++ mark :: v ∧
        since ((span (charZ ok) p).1.foldl plain start) ++ (span (charZ ok) p).2 = mark :: v := by
  obtain ⟨-, happend, -⟩ := (reads_charZ hok).span_spec p
  obtain hall | ⟨u, v, hx, hv⟩ := h.since_cases (span (charZ ok) p).1
  · rw [hall]
    exact .inl happend
  · refine .inr ⟨u, v ++ (span (charZ ok) p).2, ?_, ?_⟩
    · rw [← cons_append, ← append_assoc, ← hx, happend]
    · rw [hv, cons_append]

end Restarts

/-- After a call of `f` on `p` that needs more, and delivered `held p`, the next call delivers the rest of
what one call would deliver, as far as `pick` goes. -/
def ResumesFrom {ε : Type} (f : List UInt8 → Scan UInt8 (List UriComponent))
    (held : List UInt8 → List UriComponent × List UInt8) (pick : UriComponent → Option ε) : Prop :=
  ∀ p more,
    (held (p ++ more)).1.filterMap pick =
        (held p).1.filterMap pick ++ (held ((held p).2 ++ more)).1.filterMap pick ∧
      (held (p ++ more)).2 = (held ((held p).2 ++ more)).2 ∧
      ((f (p ++ more) = .needMoreData ∧ f ((held p).2 ++ more) = .needMoreData) ∨
        ∃ out out' rest, f (p ++ more) = .ok out rest ∧ f ((held p).2 ++ more) = .ok out' rest ∧
          out.filterMap pick = (held p).1.filterMap pick ++ out'.filterMap pick)

section Resumes

variable {σ ε : Type} {ok : UInt8 → Bool} {mark : UInt8} {plain : σ → UInt8 → σ} {start : σ}
  {since : σ → List UInt8} {out final : σ → List UriComponent}
  {behind : List UriComponent → σ → σ → Prop} {f : List UInt8 → Scan UInt8 (List UriComponent)}
  {held : List UInt8 → List UriComponent × List UInt8} {pick : UriComponent → Option ε}

/-- A parser with such a loop. -/
theorem Restarts.resumes (h : Restarts mark plain start since out behind) (hok : ok 37 = false)
    (hmark : isHexDigit mark = false) (hf : ReadsSpan ok (fun x => final (x.foldl plain start)) f)
    (hheld : ∀ p, held p = (out ((span (charZ ok) p).1.foldl plain start),
      since ((span (charZ ok) p).1.foldl plain start) ++ (span (charZ ok) p).2))
    (hbehind : ∀ {o st st'}, behind o st st' → out st = o ++ out st' ∧ since st = since st' ∧
      (final st).filterMap pick = o.filterMap pick ++ (final st').filterMap pick) :
    ResumesFrom f held pick := by
  intro p more
  have hreads := reads_charZ hok
  obtain ⟨hstar, happend, -⟩ := hreads.span_spec p
  have hwhole := hreads.span_star hstar ((span (charZ ok) p).2 ++ more)
  rw [← append_assoc, happend] at hwhole
  have hagain := h.span_since hok hmark hstar ((span (charZ ok) p).2 ++ more)
  obtain ⟨hout, hsince, hfinal⟩ := hbehind
    (h.append_behind (span (charZ ok) p).1 (span (charZ ok) ((span (charZ ok) p).2 ++ more)).1)
  rw [← append_assoc] at hagain
  rw [hheld (p ++ more), hheld p, hheld (_ ++ more), hf (p ++ more), hf (_ ++ more), hwhole, hagain]
  refine ⟨?_, ?_, ?_⟩
  · rw [hout, filterMap_append]
  · rw [hsince]
  · split
    · exact .inl ⟨rfl, rfl⟩
    · exact .inr ⟨_, _, _, rfl, rfl, hfinal⟩

end Resumes

/-! ### Paths and queries -/

/-- The second loop over a path has begun again. -/
def PathState.Behind (o : List UriComponent) (st st' : PathState) : Prop :=
  st.out = o ++ st'.out ∧ st.since = st'.since ∧ st.element = st'.element

theorem restarts_path : Restarts 47 PathState.plain ⟨[], [], [], []⟩ PathState.since PathState.out
    PathState.Behind where
  start_since := rfl
  start_behind := ⟨rfl, rfl, rfl⟩
  step {o st st'} c := by
    rintro ⟨hout, hsince, helement⟩
    rw [PathState.plain, PathState.plain]
    split
    · refine ⟨?_, ?_, rfl⟩
      · rw [PathState.slash, PathState.slash]
        dsimp only
        rw [hsince, hout, helement]
        split
        · exact append_assoc _ _ _
        · rfl
      · rw [PathState.slash, PathState.slash]
        dsimp only
        rw [hsince]
    · exact ⟨hout, congrArg (· ++ [c]) hsince, congrArg (· ++ [c]) helement⟩
  keep st c hc := by
    rw [PathState.plain, if_neg hc]
    exact ⟨rfl, rfl⟩
  mark st := by
    rw [PathState.plain, if_pos rfl, PathState.slash]
    by_cases hsince : st.since ≠ []
    · rw [if_pos hsince, if_pos hsince]
      exact .inr ⟨rfl, (append_nil _).symm, rfl, rfl⟩
    · rw [if_neg hsince, if_neg hsince]
      exact .inl ⟨rfl, rfl⟩

/-- The second loop over a query has begun again. -/
def QueryState.Behind (o : List UriComponent) (st st' : QueryState) : Prop :=
  st.out = o ++ st'.out ∧ st.since = st'.since ∧ st.name = st'.name ∧ st.nameSize = st'.nameSize ∧
    st.value = st'.value

theorem QueryState.Behind.last {o : List UriComponent} {st st' : QueryState} (h : st.Behind o st') :
    st.last = st'.last := by
  obtain ⟨-, -, hname, hsize, hvalue⟩ := h
  rw [QueryState.last, QueryState.last, hname, hsize, hvalue]

theorem restarts_query : Restarts 38 QueryState.plain ⟨[], [], [], [], 0, none⟩ QueryState.since
    QueryState.out QueryState.Behind where
  start_since := rfl
  start_behind := ⟨rfl, rfl, rfl, rfl, rfl⟩
  step {o st st'} c h := by
    have hlast := h.last
    obtain ⟨hout, hsince, hname, hsize, hvalue⟩ := h
    rw [QueryState.plain, QueryState.plain]
    split
    · exact ⟨hout, congrArg (· ++ [61]) hsince, congrArg (· ++ [61]) hname,
        congrArg List.length hname, rfl⟩
    split
    · refine ⟨?_, ?_, rfl, rfl, rfl⟩
      · rw [QueryState.ampersand, QueryState.ampersand]
        dsimp only
        rw [hout, hlast, append_assoc]
      · rw [QueryState.ampersand, QueryState.ampersand]
        dsimp only
        rw [hsince, hvalue]
    · exact ⟨hout, congrArg (· ++ [c]) hsince, congrArg (· ++ [c]) hname, hsize,
        congrArg (Option.map (· ++ [c])) hvalue⟩
  keep st c hc := by
    rw [QueryState.plain, if_neg hc]
    split
    · next heq =>
      rw [heq]
      exact ⟨rfl, rfl⟩
    · exact ⟨rfl, rfl⟩
  mark st := by
    rw [QueryState.plain, if_neg (by decide), if_pos rfl, QueryState.ampersand]
    cases hvalue : st.value with
    | none =>
      refine .inl ⟨rfl, ?_⟩
      rw [QueryState.last, hvalue]
      exact append_nil _
    | some value => exact .inr ⟨rfl, (append_nil _).symm, rfl, rfl, rfl, rfl⟩

/-- What has been delivered for a path when it has ended. -/
def PathState.final (st : PathState) : List UriComponent :=
  if st.since ≠ [] then st.out ++ [.pathElement st.element, .path st.path] else st.out

theorem readsSpan_uriParsePath :
    ReadsSpan isPathChar (fun x => (x.foldl PathState.plain ⟨[], [], [], []⟩).final)
      (uriParsePath false) := by
  intro p
  rw [uriParsePath_eq, ← pathOut_eq]
  rfl

theorem uriParsePathHeld_eq (p : List UInt8) :
    uriParsePathHeld p =
      (((span (charZ isPathChar) p).1.foldl PathState.plain ⟨[], [], [], []⟩).out,
        ((span (charZ isPathChar) p).1.foldl PathState.plain ⟨[], [], [], []⟩).since ++
          (span (charZ isPathChar) p).2) := by
  rw [uriParsePathHeld, charHold_eq (by decide) push_escaped _ le_rfl]

theorem uriParsePathHeld_cases (p : List UInt8) : (uriParsePathHeld p).2 = p ∨
    ∃ u v, p = u ++ 47 :: v ∧ (uriParsePathHeld p).2 = 47 :: v := by
  rw [uriParsePathHeld_eq]
  exact restarts_path.held_cases (by decide) p

/-- **A path may arrive in pieces.** -/
theorem resumes_uriParsePath {ε : Type} {pick : UriComponent → Option ε}
    (hpick : ∀ raw, pick (.path raw) = none) :
    ResumesFrom (uriParsePath false) uriParsePathHeld pick := by
  refine restarts_path.resumes (by decide) (by decide) readsSpan_uriParsePath uriParsePathHeld_eq
    fun {o st st'} h => ?_
  obtain ⟨hout, hsince, helement⟩ := h
  refine ⟨hout, hsince, ?_⟩
  rw [PathState.final, PathState.final, hsince, hout, helement]
  split
  · simp [filterMap_cons, hpick]
  · exact filterMap_append

/-- What has been delivered for a query when it has ended. -/
def QueryState.final (st : QueryState) : List UriComponent :=
  if st.since ≠ [] then st.out ++ st.last ++ [.query st.query] else st.out

theorem readsSpan_uriParseQuery :
    ReadsSpan isQueryChar (fun x => (x.foldl QueryState.plain ⟨[], [], [], [], 0, none⟩).final)
      (uriParseQuery false) :=
  fun p => uriParseQuery_eq false p

theorem uriParseQueryHeld_eq (p : List UInt8) :
    uriParseQueryHeld p =
      (((span (charZ isQueryChar) p).1.foldl QueryState.plain ⟨[], [], [], [], 0, none⟩).out,
        ((span (charZ isQueryChar) p).1.foldl QueryState.plain ⟨[], [], [], [], 0, none⟩).since ++
          (span (charZ isQueryChar) p).2) := by
  rw [uriParseQueryHeld, charHold_eq (by decide) query_push_escaped _ le_rfl]

theorem uriParseQueryHeld_cases (p : List UInt8) : (uriParseQueryHeld p).2 = p ∨
    ∃ u v, p = u ++ 38 :: v ∧ (uriParseQueryHeld p).2 = 38 :: v := by
  rw [uriParseQueryHeld_eq]
  exact restarts_query.held_cases (by decide) p

/-- **A query may arrive in pieces.** -/
theorem resumes_uriParseQuery {ε : Type} {pick : UriComponent → Option ε}
    (hpick : ∀ raw, pick (.query raw) = none) :
    ResumesFrom (uriParseQuery false) uriParseQueryHeld pick := by
  refine restarts_query.resumes (by decide) (by decide) readsSpan_uriParseQuery uriParseQueryHeld_eq
    fun {o st st'} h => ?_
  have hlast := h.last
  obtain ⟨hout, hsince, -⟩ := h
  refine ⟨hout, hsince, ?_⟩
  rw [QueryState.final, QueryState.final, hsince, hout, hlast]
  split
  · simp [hpick]
  · exact filterMap_append

end Uri

end Asyncio
