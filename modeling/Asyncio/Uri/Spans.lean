import Asyncio.Grammar.Rfc3986
import Asyncio.Uri.Code

/-!
# The parts of a URI as spans

The loops of the parsers read spans of bytes that are allowed or escaped, and the languages of the grammar
are the stars of such bytes.

## Main results

* `reads_charZ` — a byte that is allowed or escaped, as a word of its language
* `charHold_eq` — what the loop over a path, a query or a fragment comes to
* `pathOut_eq`, `filter_queryOut` — what is delivered for a path and a query
-/

namespace Asyncio

namespace Uri

open Computability Grammar Incremental Rfc3986 List

/-! ### Characters -/

theorem byteSet_add (p q : UInt8 → Bool) : byteSet p + byteSet q = byteSet fun c => p c || q c := by
  ext x
  constructor
  · rintro (⟨c, hc, rfl⟩ | ⟨c, hc, rfl⟩)
    · exact ⟨c, Bool.or_eq_true_iff.mpr (.inl hc), rfl⟩
    · exact ⟨c, Bool.or_eq_true_iff.mpr (.inr hc), rfl⟩
  · rintro ⟨c, hc, rfl⟩
    rcases Bool.or_eq_true_iff.mp hc with hc | hc
    · exact .inl ⟨c, hc, rfl⟩
    · exact .inr ⟨c, hc, rfl⟩

/-- A property of all bytes, by going through them. -/
theorem forall_byte {P : UInt8 → Prop} (h : ∀ n : Fin 256, P (.ofNat n)) (c : UInt8) : P c := by
  have hc := h ⟨c.toNat, c.toNat_lt⟩
  rwa [UInt8.ofNat_toNat] at hc

theorem byteSet_congr {p q : UInt8 → Bool} (h : ∀ c, p c = true ↔ q c = true) : byteSet p = byteSet q :=
  congrArg byteSet (funext fun c => Bool.eq_iff_iff.mpr (h c))

theorem mem_kstar_byteSet {p : UInt8 → Bool} {x : List UInt8} :
    x ∈ (byteSet p)∗ ↔ ∀ c ∈ x, p c = true := by
  constructor
  · intro hx
    refine kstar_induction (P := fun x => ∀ c ∈ x, p c = true) nofun (fun y hy z _ ih => ?_) hx
    obtain ⟨d, hd, rfl⟩ := hy
    exact forall_mem_cons.mpr ⟨hd, ih⟩
  · intro hx
    induction x with
    | nil => exact Language.nil_mem_kstar _
    | cons c x ih =>
      obtain ⟨hc, hx⟩ := forall_mem_cons.mp hx
      exact append_mem_kstar (x := [c]) ⟨c, hc, rfl⟩ (ih hx)

theorem digit_eq : digit = byteSet isDigit := by
  refine byteSet_congr fun c => ?_
  simp [chars, isDigit, ← UInt8.toNat_inj, UInt8.le_iff_toNat_le]
  omega

theorem hexdig_eq : hexdig = byteSet isHexDigit := by
  rw [hexdig, digit_eq, among, among, byteSet_add, byteSet_add]
  refine byteSet_congr fun c => ?_
  simp [chars, isDigit, isHexDigit, ← UInt8.toNat_inj, UInt8.le_iff_toNat_le]
  omega

theorem unreserved_eq : unreserved = byteSet isUnreserved := by
  rw [unreserved, digit_eq, alpha, among, byteSet_add, byteSet_add]
  refine byteSet_congr fun c => ?_
  simp [chars, isUnreserved, isLetter, or_assoc]

theorem subDelims_eq : subDelims = byteSet isSubDelims := by
  refine byteSet_congr fun c => ?_
  simp [chars, isSubDelims, or_assoc]

/-- Bytes with `p` or escaped. -/
def escapable (p : UInt8 → Bool) : Language UInt8 := byteSet p + pctEncoded

theorem mem_escapable_of_forall {p : UInt8 → Bool} {x : List UInt8} (hx : ∀ c ∈ x, p c = true) :
    x ∈ (escapable p)∗ :=
  kstar_mono (a := byteSet p) (fun _ hy => .inl hy) (mem_kstar_byteSet.mpr hx)

theorem regName_eq : regName = (escapable isHostChar)∗ := by
  rw [regName, escapable, add_right_comm, unreserved_eq, subDelims_eq, byteSet_add]
  rfl

theorem among_one {text : String} {d : UInt8} (h : chars text = [d]) : among text = byteSet (· == d) := by
  refine byteSet_congr fun c => ?_
  simp [h]

theorem userinfo_eq : userinfo = (escapable isUserChar)∗ := by
  rw [userinfo, escapable, add_right_comm _ pctEncoded, add_right_comm _ pctEncoded, unreserved_eq,
    subDelims_eq, among_one rfl, byteSet_add, byteSet_add]
  rfl

/-- What the two bitmaps of `isPChar` hold. -/
theorem isPChar_eq (c : UInt8) : isPChar c = (isHostChar c || c == 58 || c == 64) :=
  forall_byte (P := fun c => isPChar c = (isHostChar c || c == 58 || c == 64)) (by decide +kernel) c

theorem pchar_eq : pchar = escapable isPChar := by
  rw [pchar, escapable, add_right_comm _ pctEncoded, add_right_comm _ pctEncoded, unreserved_eq,
    subDelims_eq, among, byteSet_add, byteSet_add]
  refine congrArg (· + pctEncoded) (byteSet_congr fun c => ?_)
  simp [isPChar_eq, isHostChar, chars, or_assoc]

theorem lit_slash : lit "/" = byteSet (· == 47) := by
  ext x
  constructor
  · intro hx
    exact ⟨47, rfl, hx⟩
  · rintro ⟨c, hc, rfl⟩
    rw [eq_of_beq hc]
    rfl

theorem pathChar_eq : pathChar = escapable isPathChar := by
  rw [pathChar, pchar_eq, escapable, escapable, add_right_comm, lit_slash, byteSet_add]
  rfl

theorem queryChar_eq : pchar + among "/?" = escapable isQueryChar := by
  rw [pchar_eq, escapable, escapable, add_right_comm, among, byteSet_add]
  refine congrArg (· + pctEncoded) (byteSet_congr fun c => ?_)
  simp [isQueryChar, chars, or_assoc]

theorem mem_pctEncoded {x : List UInt8} : x ∈ pctEncoded ↔
    ∃ a b, isHexDigit a = true ∧ isHexDigit b = true ∧ x = [37, a, b] := by
  rw [pctEncoded, hexdig_eq]
  constructor
  · intro hx
    obtain ⟨y, hy, _, ⟨b, hb, rfl⟩, rfl⟩ := Language.mem_mul.mp hx
    obtain ⟨percent, hpercent, _, ⟨a, ha, rfl⟩, rfl⟩ := Language.mem_mul.mp hy
    obtain rfl : percent = [37] := hpercent
    exact ⟨a, b, ha, hb, rfl⟩
  · rintro ⟨a, b, ha, hb, rfl⟩
    have hpercent : [37] ∈ lit "%" := rfl
    have hdigit {c : UInt8} (hc : isHexDigit c = true) : [c] ∈ byteSet isHexDigit := ⟨c, hc, rfl⟩
    exact Language.append_mem_mul (Language.append_mem_mul hpercent (hdigit ha)) (hdigit hb)

theorem consumePctEncodedZ_eq_some {p rest : List UInt8} (h : consumePctEncodedZ p = some rest) :
    ∃ a b, isHexDigit a = true ∧ isHexDigit b = true ∧ p = 37 :: a :: b :: rest := by
  unfold consumePctEncodedZ at h
  split at h
  · next c a b p =>
    split at h
    · next hc =>
      cases h
      rw [Bool.and_eq_true, Bool.and_eq_true, decide_eq_true_iff] at hc
      obtain ⟨⟨rfl, ha⟩, hb⟩ := hc
      exact ⟨a, b, ha, hb, rfl⟩
    · cases h
  · cases h

theorem consumePctEncodedZ_of_hex {a b : UInt8} (ha : isHexDigit a = true) (hb : isHexDigit b = true)
    (rest : List UInt8) : consumePctEncodedZ (37 :: a :: b :: rest) = some rest := by
  rw [consumePctEncodedZ, ha, hb]
  rfl

variable {ok : UInt8 → Bool}

/-- **A byte that is allowed or escaped.** -/
theorem reads_charZ (hok : ok 37 = false) : Reads (charZ ok) (escapable ok) where
  sound := by
    intro s rest h
    cases s with
    | nil => cases h
    | cons c p =>
      rw [charZ] at h
      split at h
      · next hc =>
        cases h
        exact ⟨[c], .inl ⟨c, hc, rfl⟩, cons_ne_nil _ _, rfl⟩
      · obtain ⟨a, b, ha, hb, heq⟩ := consumePctEncodedZ_eq_some h
        exact ⟨[37, a, b], .inr (mem_pctEncoded.mpr ⟨a, b, ha, hb, rfl⟩), cons_ne_nil _ _, heq⟩
  complete := by
    rintro x (⟨c, hc, rfl⟩ | hx)
    · exact ⟨cons_ne_nil _ _, fun rest => if_pos hc⟩
    · obtain ⟨a, b, ha, hb, rfl⟩ := mem_pctEncoded.mp hx
      refine ⟨cons_ne_nil _ _, fun rest => ?_⟩
      show (if ok 37 = true then _ else _) = _
      rw [if_neg (by rw [hok]; nofun)]
      exact consumePctEncodedZ_of_hex ha hb rest

/-- Nothing is read at a byte that is neither allowed nor a percent sign. -/
theorem charZ_of_not {c : UInt8} (hc : ok c = false) (hpercent : c ≠ 37)
    (p : List UInt8) : charZ ok (c :: p) = none := by
  cases h : charZ ok (c :: p) with
  | none => rfl
  | some rest =>
    rw [charZ, if_neg (by rw [hc]; nofun)] at h
    obtain ⟨a, b, -, -, heq⟩ := consumePctEncodedZ_eq_some h
    exact absurd (List.cons.inj heq).1 hpercent

/-! ### The loop -/

/-- How `consumePctEncoded` and `consumePctEncodedZ` agree. -/
theorem consumePctEncoded_cases (c : UInt8) (p : List UInt8) :
    (∃ a b rest, isHexDigit a = true ∧ isHexDigit b = true ∧ c :: p = 37 :: a :: b :: rest ∧
      consumePctEncoded (c :: p) = .accepted [37, a, b] rest) ∨
    (consumePctEncodedZ (c :: p) = none ∧
      (consumePctEncoded (c :: p) = .invalid ∨ (consumePctEncoded (c :: p) = .needMore ∧ c = 37))) := by
  unfold consumePctEncoded
  dsimp only
  by_cases hc : c ≠ 37
  · rw [if_pos hc]
    refine .inr ⟨?_, .inl rfl⟩
    cases h : consumePctEncodedZ (c :: p) with
    | none => rfl
    | some rest =>
      obtain ⟨a, b, -, -, heq⟩ := consumePctEncodedZ_eq_some h
      exact absurd (List.cons.inj heq).1 hc
  rw [if_neg hc]
  obtain rfl := not_not.mp hc
  match p with
  | [] => exact .inr ⟨rfl, .inr ⟨rfl, rfl⟩⟩
  | [a] =>
    dsimp only
    split
    · exact .inr ⟨rfl, .inl rfl⟩
    · exact .inr ⟨rfl, .inr ⟨rfl, rfl⟩⟩
  | a :: b :: rest =>
    dsimp only
    cases ha : isHexDigit a with
    | false => exact .inr ⟨by rw [consumePctEncodedZ, ha]; rfl, .inl rfl⟩
    | true =>
      cases hb : isHexDigit b with
      | false => exact .inr ⟨by rw [consumePctEncodedZ, ha, hb]; rfl, .inl rfl⟩
      | true => exact .inl ⟨a, b, rest, ha, hb, rfl, rfl⟩

/-- The bytes end in the middle of an escaped byte. -/
def midEscape (t : List UInt8) : Bool :=
  match consumePctEncoded t with
  | .needMore => true
  | .accepted _ _ | .invalid => false

theorem eq_of_midEscape {t : List UInt8} (h : midEscape t = true) :
    ∃ front, t = 37 :: front ∧ (front = [] ∨ ∃ a, isHexDigit a = true ∧ front = [a]) := by
  match t with
  | [] => cases h
  | c :: p =>
    unfold midEscape consumePctEncoded at h
    dsimp only at h
    by_cases hc : c ≠ 37
    · rw [if_pos hc] at h
      cases h
    rw [if_neg hc] at h
    refine ⟨p, by rw [not_not.mp hc], ?_⟩
    match p with
    | [] => exact .inl rfl
    | a :: p =>
      dsimp only at h
      cases ha : isHexDigit a with
      | false =>
        rw [ha] at h
        cases h
      | true =>
        rw [ha] at h
        match p with
        | [] => exact .inr ⟨a, ha, rfl⟩
        | b :: p =>
          dsimp only at h
          cases hb : isHexDigit b with
          | false =>
            rw [hb] at h
            cases h
          | true =>
            rw [hb] at h
            cases h

section Loop

variable {σ : Type} {ok : UInt8 → Bool} {plain : σ → UInt8 → σ} {escaped : σ → List UInt8 → σ}

/-- The loop ends where `charHold` does. -/
theorem charLoop_eq_charHold {fuel : ℕ} {p : List UInt8} (st : σ) (hfuel : p.length ≤ fuel) :
    charLoop ok plain escaped fuel st p =
      if midEscape (charHold ok plain escaped fuel st p).2 then .needMoreData
      else .ok (charHold ok plain escaped fuel st p).1 (charHold ok plain escaped fuel st p).2 := by
  induction fuel generalizing p st with
  | zero =>
    obtain rfl := eq_nil_of_length_eq_zero (Nat.le_zero.mp hfuel)
    rfl
  | succ fuel ih =>
    cases p with
    | nil => rfl
    | cons c p =>
      rw [length_cons] at hfuel
      rw [charLoop, charHold]
      by_cases hc : ok c = true
      · rw [if_pos hc, if_pos hc]
        exact ih _ (by omega)
      rw [if_neg hc, if_neg hc]
      cases hconsume : consumePctEncoded (c :: p) with
      | accepted bytes rest =>
        obtain ⟨a, b, rest', -, -, heq, haccepted⟩ | ⟨-, hnot | ⟨hnot, -⟩⟩ := consumePctEncoded_cases c p
        · rw [hconsume] at haccepted
          cases haccepted
          have hlength := congrArg List.length heq
          simp only [length_cons] at hlength
          exact ih _ (by omega)
        · rw [hconsume] at hnot
          cases hnot
        · rw [hconsume] at hnot
          cases hnot
      | needMore =>
        dsimp only
        rw [midEscape, hconsume]
        rfl
      | invalid =>
        dsimp only
        rw [midEscape, hconsume]
        rfl

/-- **The loop over a path, a query or a fragment** goes over the bytes of a span. -/
theorem charHold_eq (hok : ok 37 = false)
    (hescaped : ∀ st a b, isHexDigit a = true → isHexDigit b = true →
      escaped st [37, a, b] = [37, a, b].foldl plain st)
    {fuel : ℕ} {p : List UInt8} (st : σ) (hfuel : p.length ≤ fuel) :
    charHold ok plain escaped fuel st p =
      ((span (charZ ok) p).1.foldl plain st, (span (charZ ok) p).2) := by
  have hreads := reads_charZ hok
  have hnil : span (charZ ok) [] = ([], []) := Reads.span_of_none rfl
  induction fuel generalizing p st with
  | zero =>
    obtain rfl := eq_nil_of_length_eq_zero (Nat.le_zero.mp hfuel)
    rw [hnil]
    rfl
  | succ fuel ih =>
    cases p with
    | nil =>
      rw [hnil]
      rfl
    | cons c p =>
      rw [length_cons] at hfuel
      rw [charHold]
      by_cases hc : ok c = true
      · rw [if_pos hc]
        have hword : [c] ∈ escapable ok := .inl ⟨c, hc, rfl⟩
        rw [← singleton_append, hreads.span_word hword]
        exact ih _ (by omega)
      rw [if_neg hc]
      obtain ⟨a, b, rest, ha, hb, heq, hconsume⟩ | ⟨hnone, hconsume⟩ := consumePctEncoded_cases c p
      · rw [hconsume]
        have hword : [37, a, b] ∈ escapable ok := .inr (mem_pctEncoded.mpr ⟨a, b, ha, hb, rfl⟩)
        have hlength := congrArg List.length heq
        simp only [length_cons] at hlength
        rw [heq]
        show charHold ok plain escaped fuel (escaped st [37, a, b]) rest = _
        rw [show 37 :: a :: b :: rest = [37, a, b] ++ rest from rfl, hreads.span_word hword rest,
          hescaped st a b ha hb, foldl_append]
        exact ih _ (by omega)
      · have hspan : span (charZ ok) (c :: p) = ([], c :: p) :=
          Reads.span_of_none (by rw [charZ, if_neg hc, hnone])
        rw [hspan]
        obtain hconsume | ⟨hconsume, rfl⟩ := hconsume
        · rw [hconsume]
          rfl
        · rw [hconsume]
          rfl

/-- The same for `charLoop`, which may need more. -/
theorem charLoop_eq (hok : ok 37 = false)
    (hescaped : ∀ st a b, isHexDigit a = true → isHexDigit b = true →
      escaped st [37, a, b] = [37, a, b].foldl plain st) (st : σ) (p : List UInt8):
    charLoop ok plain escaped p.length st p =
      if midEscape (span (charZ ok) p).2 then .needMoreData
      else .ok ((span (charZ ok) p).1.foldl plain st) (span (charZ ok) p).2 := by
  rw [charLoop_eq_charHold st le_rfl, charHold_eq hok hescaped st le_rfl]

end Loop

/-! ### Paths and queries -/

/-- A path without the slash at its front. -/
def withoutSlash : List UInt8 → List UInt8
  | [] => []
  | c :: x => if c = 47 then x else c :: x

/-- The elements of a path, and the path. -/
def pathOut (x : List UInt8) : List UriComponent :=
  if x = [] then [] else ((withoutSlash x).splitOn 47).map .pathElement ++ [.path x]

theorem splitOn_cons (mark c : UInt8) (x : List UInt8) : (c :: x).splitOn mark =
    if c = mark then [] :: x.splitOn mark else (x.splitOn mark).modifyHead (c :: ·) := by
  rw [List.splitOn, splitOnP_cons_eq_if_modifyHead]
  by_cases hc : c = mark
  · rw [if_pos hc, if_pos (beq_iff_eq.mpr hc)]
    rfl
  · rw [if_neg hc, if_neg (mt beq_iff_eq.mp hc)]
    rfl

/-- The path so far, in the middle of it. -/
theorem foldl_plain {st : PathState} (hsince : st.since ≠ []) (x : List UInt8) :
    (x.foldl PathState.plain st).path = st.path ++ x ∧ (x.foldl PathState.plain st).since ≠ [] ∧
      (x.foldl PathState.plain st).out ++ [.pathElement (x.foldl PathState.plain st).element] =
        st.out ++ ((x.splitOn 47).modifyHead (st.element ++ ·)).map .pathElement := by
  induction x generalizing st with
  | nil =>
    refine ⟨(append_nil _).symm, hsince, ?_⟩
    simp
  | cons c x ih =>
    rw [foldl_cons, splitOn_cons]
    by_cases hc : c = 47
    · have hstep : st.plain c = st.slash := if_pos hc
      have hnext : (st.plain c).since ≠ [] := by
        rw [hstep, PathState.slash]
        dsimp only
        rw [if_pos hsince]
        exact cons_ne_nil _ _
      obtain ⟨hpath, hne, hout⟩ := ih hnext
      refine ⟨?_, hne, ?_⟩
      · rw [hpath, hstep, hc]
        exact append_assoc _ _ _
      · rw [hout, hstep, if_pos hc, PathState.slash]
        dsimp only
        rw [if_pos hsince]
        cases x.splitOn 47 <;> simp
    · have hstep : st.plain c = st.push [c] := if_neg hc
      have hnext : (st.plain c).since ≠ [] := by
        rw [hstep]
        exact append_ne_nil_of_right_ne_nil _ (cons_ne_nil _ _)
      obtain ⟨hpath, hne, hout⟩ := ih hnext
      refine ⟨?_, hne, ?_⟩
      · rw [hpath, hstep]
        exact append_assoc _ _ _
      · rw [hout, hstep, if_neg hc, PathState.push]
        cases x.splitOn 47 <;> simp

/-- **What is delivered for a path.** -/
theorem pathOut_eq (x : List UInt8) :
    (if (x.foldl PathState.plain ⟨[], [], [], []⟩).since ≠ [] then
      (x.foldl PathState.plain ⟨[], [], [], []⟩).out ++
        [.pathElement (x.foldl PathState.plain ⟨[], [], [], []⟩).element,
          .path (x.foldl PathState.plain ⟨[], [], [], []⟩).path]
    else (x.foldl PathState.plain ⟨[], [], [], []⟩).out) = pathOut x := by
  cases x with
  | nil => rfl
  | cons c x =>
    have hfirst : (PathState.plain ⟨[], [], [], []⟩ c).since ≠ [] ∧
        (PathState.plain ⟨[], [], [], []⟩ c).path = [c] ∧
        (PathState.plain ⟨[], [], [], []⟩ c).out = [] ∧
        (PathState.plain ⟨[], [], [], []⟩ c).element = if c = 47 then [] else [c] := by
      rw [PathState.plain]
      by_cases hc : c = 47
      · rw [if_pos hc, if_pos hc, hc]
        exact ⟨cons_ne_nil _ _, rfl, rfl, rfl⟩
      · rw [if_neg hc, if_neg hc]
        exact ⟨cons_ne_nil _ _, rfl, rfl, rfl⟩
    obtain ⟨hsince, hpath, hnone, helement⟩ := hfirst
    obtain ⟨hpath', hsince', hout⟩ := foldl_plain hsince x
    rw [foldl_cons, if_pos hsince', pathOut, if_neg (cons_ne_nil _ _), hpath', hpath]
    rw [hnone, helement] at hout
    have happend (out : List UriComponent) (a b : UriComponent) : out ++ [a, b] = out ++ [a] ++ [b] := by
      simp
    rw [happend, hout]
    by_cases hc : c = 47
    · rw [withoutSlash, if_pos hc, if_pos hc]
      cases x.splitOn 47 <;> simp
    · rw [withoutSlash, if_neg hc, if_neg hc, splitOn_cons, if_neg hc]
      rfl

/-- Everything but the elements of a query. -/
def notElement : UriComponent → Bool
  | .queryElement _ _ => false
  | _ => true

theorem filter_last (st : QueryState) : st.last.filter notElement = [] := by
  unfold QueryState.last
  cases st.value <;> rfl

/-- The query so far. -/
theorem foldl_query {st : QueryState} (hout : st.out.filter notElement = []) (x : List UInt8) :
    (x.foldl QueryState.plain st).out.filter notElement = [] ∧
      (x.foldl QueryState.plain st).query = st.query ++ x ∧
      (x ≠ [] ∨ st.since ≠ [] → (x.foldl QueryState.plain st).since ≠ []) := by
  induction x generalizing st with
  | nil => exact ⟨hout, (append_nil _).symm, fun h => h.resolve_left fun hne => hne rfl⟩
  | cons c x ih =>
    have hstep : (st.plain c).out.filter notElement = [] ∧ (st.plain c).query = st.query ++ [c] ∧
        (st.plain c).since ≠ [] := by
      rw [QueryState.plain]
      split
      · next hc =>
        rw [hc]
        exact ⟨hout, rfl, append_ne_nil_of_right_ne_nil _ (cons_ne_nil _ _)⟩
      split
      · next hc =>
        rw [hc, QueryState.ampersand]
        refine ⟨?_, rfl, ?_⟩
        · rw [filter_append, hout, filter_last]
          rfl
        · dsimp only
          split
          · exact cons_ne_nil _ _
          · exact append_ne_nil_of_right_ne_nil _ (cons_ne_nil _ _)
      · exact ⟨hout, rfl, append_ne_nil_of_right_ne_nil _ (cons_ne_nil _ _)⟩
    obtain ⟨hout', hquery, hsince⟩ := hstep
    obtain ⟨hfilter, hquery', hne⟩ := ih hout'
    refine ⟨hfilter, ?_, fun _ => hne (.inr hsince)⟩
    rw [foldl_cons, hquery', hquery, append_assoc]
    rfl

/-- What is delivered for a query. -/
def queryOut (x : List UInt8) : List UriComponent :=
  let st := x.foldl QueryState.plain ⟨[], [], [], [], 0, none⟩
  if st.since ≠ [] then st.out ++ st.last ++ [.query st.query] else st.out

/-- **Without its elements**, it is the query, if this is not empty. -/
theorem filter_queryOut (x : List UInt8) :
    (queryOut x).filter notElement = if x = [] then [] else [.query x] := by
  by_cases hx : x = []
  · rw [if_pos hx, hx]
    rfl
  · rw [if_neg hx]
    obtain ⟨hout, hquery, hsince⟩ :=
      @foldl_query ⟨[], [], [], [], 0, none⟩ rfl x
    rw [queryOut, if_pos (hsince (.inl hx)), filter_append, filter_append, hout, filter_last,
      hquery]
    rfl

/-! ### What the parsers of these parts come to -/

theorem isHexDigit_ne {a c : UInt8} (ha : isHexDigit a = true) (hc : isHexDigit c = false) : a ≠ c := by
  rintro rfl
  rw [ha] at hc
  cases hc

/-- Where a part of a URI ends, it may be that more is needed. -/
def undecided (uriOnly : Bool) (t : List UInt8) : Bool := midEscape t || (t = [] && !uriOnly)

theorem push_escaped (st : PathState) (a b : UInt8) (ha : isHexDigit a = true) (hb : isHexDigit b = true) :
    st.push [37, a, b] = [37, a, b].foldl PathState.plain st := by
  have ha' := isHexDigit_ne ha (c := 47) (by decide)
  have hb' := isHexDigit_ne hb (c := 47) (by decide)
  simp [PathState.plain, ha', hb', PathState.push]

theorem query_push_escaped (st : QueryState) (a b : UInt8) (ha : isHexDigit a = true)
    (hb : isHexDigit b = true) : st.push [37, a, b] = [37, a, b].foldl QueryState.plain st := by
  have ha₁ := isHexDigit_ne ha (c := 61) (by decide)
  have ha₂ := isHexDigit_ne ha (c := 38) (by decide)
  have hb₁ := isHexDigit_ne hb (c := 61) (by decide)
  have hb₂ := isHexDigit_ne hb (c := 38) (by decide)
  cases hvalue : st.value <;> simp [QueryState.plain, ha₁, ha₂, hb₁, hb₂, QueryState.push, hvalue]

/-- What `uriParsePath` comes to. -/
theorem uriParsePath_eq (uriOnly : Bool) (p : List UInt8) :
    uriParsePath uriOnly p =
      if undecided uriOnly (span (charZ isPathChar) p).2 then .needMoreData
      else .ok (pathOut (span (charZ isPathChar) p).1) (span (charZ isPathChar) p).2 := by
  rw [uriParsePath, charLoop_eq (by decide) push_escaped, ← pathOut_eq, undecided]
  cases midEscape (span (charZ isPathChar) p).2 with
  | true => rfl
  | false =>
    rw [if_neg Bool.false_ne_true, Bool.false_or, Scan.bind]
    split
    · rfl
    split
    · rfl
    · rfl

/-- What `uriParseQuery` comes to. -/
theorem uriParseQuery_eq (uriOnly : Bool) (p : List UInt8) :
    uriParseQuery uriOnly p =
      if undecided uriOnly (span (charZ isQueryChar) p).2 then .needMoreData
      else .ok (queryOut (span (charZ isQueryChar) p).1) (span (charZ isQueryChar) p).2 := by
  rw [uriParseQuery, charLoop_eq (by decide) query_push_escaped, queryOut, undecided]
  cases midEscape (span (charZ isQueryChar) p).2 with
  | true => rfl
  | false =>
    rw [if_neg Bool.false_ne_true, Bool.false_or, Scan.bind]
    split
    · rfl
    split
    · rfl
    · rfl

/-- What is delivered for a fragment. -/
def fragmentOut (x : List UInt8) : List UriComponent := if x = [] then [] else [.fragment x]

theorem foldl_snoc (x since : List UInt8) : x.foldl (fun since c => since ++ [c]) since = since ++ x := by
  induction x generalizing since with
  | nil => exact (append_nil _).symm
  | cons c x ih => rw [foldl_cons, ih, append_assoc, singleton_append]

/-- What `uriParseFragment` comes to. -/
theorem uriParseFragment_eq (uriOnly : Bool) (p : List UInt8) :
    uriParseFragment uriOnly p =
      if undecided uriOnly (span (charZ isQueryChar) p).2 then .needMoreData
      else .ok (fragmentOut (span (charZ isQueryChar) p).1) (span (charZ isQueryChar) p).2 := by
  rw [uriParseFragment, charLoop_eq (by decide) fun st a b _ _ => (foldl_snoc [37, a, b] st).symm,
    foldl_snoc, nil_append, fragmentOut, undecided]
  cases midEscape (span (charZ isQueryChar) p).2 with
  | true => rfl
  | false =>
    rw [if_neg Bool.false_ne_true, Bool.false_or, Scan.bind]
    split
    · rfl
    by_cases hx : (span (charZ isQueryChar) p).1 = []
    · rw [if_neg (not_not.mpr hx), if_pos hx]
    · rw [if_pos hx, if_neg hx]

/-- At the end of a string, only the middle of an escaped byte is undecided. -/
theorem parserOk_cases {f : List UInt8 → Scan UInt8 (List UriComponent)}
    {out : List UInt8 → List UriComponent}
    (hf : ∀ p, f p = if undecided true (span (charZ ok) p).2 then .needMoreData
      else .ok (out (span (charZ ok) p).1) (span (charZ ok) p).2) (p : List UInt8) :
    parserOk (f p) = some (out (span (charZ ok) p).1, (span (charZ ok) p).2) ∨
      (parserOk (f p) = none ∧ ∃ t, (span (charZ ok) p).2 = 37 :: t) := by
  rw [hf]
  split
  · next h =>
    rw [undecided, Bool.not_true, Bool.and_false, Bool.or_false] at h
    obtain ⟨t, ht, -⟩ := eq_of_midEscape h
    exact .inr ⟨rfl, t, ht⟩
  · exact .inl rfl

end Uri

end Asyncio
