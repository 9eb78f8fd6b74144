import Asyncio.Wire.Machine

/-!
# Reads and writes that may park

A `Source` is what a peer has sent and nobody has read, with the answers to one question for each of
the reads to come: whether it parks. A read asks for a number of elements and gets all of them, at
once or when it is entered again; if the source has not that many, it never does.

`Arrivals` are read in pieces: a read gets something, but not more than it asks for.

A `Sink` is what was written, with the answers for the writes to come: whether it parks, and after how
many elements. The rest is written before the writer is entered again.
-/

namespace Wire

variable {α σ ρ : Type}

/-- How an operation begins: attempted at once, or behind others. -/
inductive Path
  | inline | queued

structure Source (α : Type) where
  input : List α
  /-- Whether each of the reads to come parks. -/
  parks : ℕ → Bool

/-- What comes of a read. -/
inductive Fetch (α : Type)
  | inline (bytes : List α) (rest : Source α)
  | parked (bytes : List α) (rest : Source α)
  /-- The read parks and is never finished. -/
  | starved

/-- Read `n` elements, all of them. -/
def Source.read (n : ℕ) (source : Source α) : Fetch α :=
  if n = 0 then .inline [] source
  else if source.input.length < n then .starved
  else
    let rest : Source α := ⟨source.input.drop n, fun i => source.parks (i + 1)⟩
    if source.parks 0 then .parked (source.input.take n) rest
    else .inline (source.input.take n) rest

/-- A turn that reads `n` elements and goes on with them in either case; one that starves ends with
`waiting`. -/
def Source.turn (n : ℕ) (source : Source α) (waiting : ρ) (k : List α → Source α → σ) : Turn σ ρ :=
  match source.read n with
  | .inline bytes rest => .next (k bytes rest)
  | .parked bytes rest => .park (k bytes rest)
  | .starved => .done waiting

/-- The three ways a read can go. -/
theorem Source.read_cases (n : ℕ) (source : Source α) :
    (source.input.length < n ∧ source.read n = .starved) ∨
    (n ≤ source.input.length ∧ ∃ parks,
      source.read n = .inline (source.input.take n) ⟨source.input.drop n, parks⟩) ∨
    (n ≤ source.input.length ∧ 0 < n ∧ ∃ parks,
      source.read n = .parked (source.input.take n) ⟨source.input.drop n, parks⟩) := by
  unfold Source.read
  by_cases hzero : n = 0
  · rw [if_pos hzero]
    subst hzero
    exact .inr (.inl ⟨Nat.zero_le _, source.parks, rfl⟩)
  · rw [if_neg hzero]
    by_cases hshort : source.input.length < n
    · rw [if_pos hshort]
      exact .inl ⟨hshort, rfl⟩
    · rw [if_neg hshort]
      have hle := Nat.le_of_not_lt hshort
      dsimp only
      split
      · exact .inr (.inr ⟨hle, Nat.pos_of_ne_zero hzero, _, rfl⟩)
      · exact .inr (.inl ⟨hle, _, rfl⟩)

/-- A turn that reads starves, or leads on with the elements read. -/
theorem Source.turn_cases (n : ℕ) (source : Source α) (waiting : ρ) (k : List α → Source α → σ):
    (source.input.length < n ∧ source.turn n waiting k = .done waiting) ∨
    (n ≤ source.input.length ∧ ∃ parks,
      source.turn n waiting k = .next (k (source.input.take n) ⟨source.input.drop n, parks⟩) ∨
      source.turn n waiting k = .park (k (source.input.take n) ⟨source.input.drop n, parks⟩)) := by
  unfold Source.turn
  obtain ⟨hshort, h⟩ | ⟨hle, parks, h⟩ | ⟨hle, -, parks, h⟩ := source.read_cases n
  · exact .inl ⟨hshort, by rw [h]⟩
  · exact .inr ⟨hle, parks, .inl (by rw [h])⟩
  · exact .inr ⟨hle, parks, .inr (by rw [h])⟩

theorem Source.all_turn {n : ℕ} {source : Source α} {waiting : ρ} {k : List α → Source α → σ}
    {P : σ → Prop} (h : n ≤ source.input.length → ∀ parks,
      P (k (source.input.take n) ⟨source.input.drop n, parks⟩)) :
    (source.turn n waiting k).All P := by
  obtain ⟨-, hturn⟩ | ⟨hle, parks, hturn | hturn⟩ := source.turn_cases n waiting k
  · rw [hturn]
    exact trivial
  · rw [hturn]
    exact h hle parks
  · rw [hturn]
    exact h hle parks

structure Arrivals (α : Type) where
  input : List α
  /-- How much each of the reads to come would get, and whether it parks. -/
  sizes : ℕ → ℕ
  parks : ℕ → Bool

/-- How much a read that asks for `n` elements gets. -/
def Arrivals.size (n : ℕ) (arrivals : Arrivals α) : ℕ :=
  max 1 (min (arrivals.sizes 0) (min n arrivals.input.length))

/-- What is left after a read. -/
def Arrivals.after (n : ℕ) (arrivals : Arrivals α) : Arrivals α where
  input := arrivals.input.drop (arrivals.size n)
  sizes i := arrivals.sizes (i + 1)
  parks i := arrivals.parks (i + 1)

/-- A turn that reads at most `n` elements; without any, it ends with `waiting`. -/
def Arrivals.turn (n : ℕ) (arrivals : Arrivals α) (waiting : ρ) (k : List α → Arrivals α → σ) :
    Turn σ ρ :=
  if arrivals.input.length = 0 then .done waiting
  else
    let bytes := arrivals.input.take (arrivals.size n)
    if arrivals.parks 0 then .park (k bytes (arrivals.after n))
    else .next (k bytes (arrivals.after n))

/-- There is nothing to read, or a piece is read, and both ways lead on with it. -/
theorem Arrivals.turn_cases {n : ℕ} (hn : 0 < n) (arrivals : Arrivals α) (waiting : ρ)
    (k : List α → Arrivals α → σ) :
    (arrivals.input = [] ∧ arrivals.turn n waiting k = .done waiting) ∨
    ∃ piece rest, piece ≠ [] ∧ piece.length ≤ n ∧ piece ++ rest.input = arrivals.input ∧
      (arrivals.turn n waiting k = .next (k piece rest) ∨
        arrivals.turn n waiting k = .park (k piece rest)) := by
  unfold Arrivals.turn
  by_cases hnil : arrivals.input.length = 0
  · rw [if_pos hnil]
    exact .inl ⟨List.eq_nil_of_length_eq_zero hnil, rfl⟩
  · rw [if_neg hnil]
    have hlength : (arrivals.input.take (arrivals.size n)).length = arrivals.size n := by
      rw [List.length_take, Arrivals.size]
      omega
    refine .inr ⟨arrivals.input.take (arrivals.size n), arrivals.after n, fun hpiece => ?_, ?_,
      List.take_append_drop (arrivals.size n) arrivals.input, ?_⟩
    · rw [hpiece, Arrivals.size, List.length_nil] at hlength
      omega
    · rw [hlength, Arrivals.size]
      omega
    · dsimp only
      split
      · exact .inr rfl
      · exact .inl rfl

structure Sink (α : Type) where
  output : List α
  /-- Whether each of the writes to come parks, and after how many elements. -/
  parks : ℕ → Option ℕ

/-- What comes of a write. -/
inductive Push (α : Type)
  | inline (sink : Sink α)
  /-- The operation that was left behind has `rest` to write. -/
  | parked (sink : Sink α) (rest : List α)

/-- Write all of `bytes`. -/
def Sink.write (bytes : List α) (sink : Sink α) : Push α :=
  if bytes.length = 0 then .inline sink
  else
    let parks := fun i => sink.parks (i + 1)
    match sink.parks 0 with
    | none => .inline ⟨sink.output ++ bytes, parks⟩
    | some n => .parked ⟨sink.output ++ bytes.take n, parks⟩ (bytes.drop n)

/-- The operation that was left behind ends. -/
def Sink.finish (rest : List α) (sink : Sink α) : Sink α :=
  { sink with output := sink.output ++ rest }

/-- The two ways a write can go; in the end all was written. -/
theorem Sink.write_cases (bytes : List α) (sink : Sink α) :
    (∃ parks, sink.write bytes = .inline ⟨sink.output ++ bytes, parks⟩) ∨
    (∃ sink' rest parks, sink.write bytes = .parked sink' rest ∧
      sink'.finish rest = ⟨sink.output ++ bytes, parks⟩) := by
  unfold Sink.write
  by_cases hzero : bytes.length = 0
  · rw [if_pos hzero, List.eq_nil_of_length_eq_zero hzero, List.append_nil]
    exact .inl ⟨sink.parks, rfl⟩
  · rw [if_neg hzero]
    dsimp only
    cases sink.parks 0 with
    | none => exact .inl ⟨_, rfl⟩
    | some n =>
      refine .inr ⟨_, _, fun i => sink.parks (i + 1), rfl, ?_⟩
      simp [Sink.finish]

/-- A turn that writes and goes on. -/
def Sink.turn (bytes : List α) (sink : Sink α) (k : Sink α → σ) : Turn σ ρ :=
  match sink.write bytes with
  | .inline sink => .next (k sink)
  | .parked sink rest => .park (k (sink.finish rest))

theorem Sink.turn_leads (bytes : List α) (sink : Sink α) (k : Sink α → σ) :
    ∃ parks, sink.turn (ρ := ρ) bytes k = .next (k ⟨sink.output ++ bytes, parks⟩) ∨
      sink.turn (ρ := ρ) bytes k = .park (k ⟨sink.output ++ bytes, parks⟩) := by
  unfold Sink.turn
  obtain ⟨parks, h⟩ | ⟨sink', rest, parks, h, hfinish⟩ := sink.write_cases bytes
  · exact ⟨parks, .inl (by rw [h])⟩
  · exact ⟨parks, .inr (by rw [h]; exact congrArg (fun s => Turn.park (k s)) hfinish)⟩

end Wire
