import Asyncio.Concurrent.Outline
import Asyncio.Stream.Buffer

/-!
# Reads keep the stream

What the reads on an object have stored, then what its read-ahead buffer still holds, then what is
unread, is the stream. It rests on one fact about the code: whenever it reads from the descriptor, it
has emptied the buffer before, and whenever it stops short of that the read is complete.

## Main results

* `Stream.outline_implRead`, `Stream.outline_readSyscall` — the two ways a read proceeds
* `Stream.reads_preserve_stream` — the stream, the buffer and the reads that have ended, in every state
  of every sequence of reads
-/

namespace Asyncio

namespace Stream

open Concurrent List

variable {α : Type}

/-! ### Assertions -/

/-- What does not change while a read is under way. -/
structure Fixed (size : ℕ) (waitAll : Bool) (totalSize : ℕ) (s : State α) : Prop where
  transaction : s.op.transactionSize = size
  flag : s.op.waitAll = waitAll
  capacity : s.buffer.totalSize = totalSize

/-- All that was read is counted. -/
structure Counted (size : ℕ) (waitAll : Bool) (totalSize : ℕ) (s : State α) : Prop extends
    Fixed size waitAll totalSize s where
  counted : s.inHand = []

/-- The buffer is empty, and the read has to go on. -/
structure Drained (size : ℕ) (waitAll : Bool) (totalSize : ℕ) (s : State α) : Prop extends
    Counted size waitAll totalSize s where
  empty : s.buffer.Empty
  short : s.op.bytesTransferred < size

/-- The memory of the buffer was filled with `count` bytes. -/
structure Refilled (size : ℕ) (waitAll : Bool) (totalSize count : ℕ) (s : State α) : Prop extends
    Fixed size waitAll totalSize s where
  empty : s.buffer.Empty
  short : s.op.bytesTransferred < size
  inHand : s.inHand = s.buffer.ptr.take count
  pos : 0 < count
  fits : count ≤ totalSize

/-- After the `stored` bytes of the read, `count` more are in the memory of the caller. -/
structure Received (size : ℕ) (waitAll : Bool) (totalSize stored count : ℕ) (s : State α) : Prop
    extends Fixed size waitAll totalSize s where
  empty : s.buffer.Empty
  before : s.op.bytesTransferred = stored
  length : s.inHand.length = count
  inHand : s.op.buffer.take (stored + count) = s.op.stored ++ s.inHand
  fits : stored + count ≤ size

/-- The read may be reported as a success. -/
structure Success (s : State α) : Prop where
  whole : s.op.waitAll = true → s.op.bytesTransferred = s.op.transactionSize
  some : 0 < s.op.transactionSize → 0 < s.op.bytesTransferred

variable {s : State α}

theorem Success.of_all (h : s.op.bytesTransferred = s.op.transactionSize) :
    Success s :=
  ⟨fun _ => h, fun hpos => h ▸ hpos⟩

theorem Success.of_some (hwait : s.op.waitAll = false) (h : 0 < s.op.bytesTransferred): Success s :=
  ⟨fun hwait' => absurd (hwait.symm.trans hwait') nofun, fun _ => h⟩

/-! ### Outlines -/

/-- An outline for the one thread that uses the object. -/
def Spec {β : Type} (stream : List α) (P : State α → Prop) (p : Prog (State α) β)
    (Q : β → State α → Prop) : Prop :=
  Outline (poolTerms (τ := Unit) (Inv stream) (fun _ _ _ => True) ()) P p Q

section Outlines

variable {stream : List α} {size totalSize : ℕ} {waitAll : Bool}

/-- Nobody else changes anything. -/
theorem stable (P : State α → Prop) :
    Stable (poolTerms (τ := Unit) (Inv stream) (fun _ _ _ => True) ()) P :=
  fun _ _ _ _ ⟨_, hne, _⟩ _ => absurd rfl hne

variable {β : Type} {Q : β → State α → Prop} {P : State α → Prop}

theorem Spec.ret {x : β} (h : ∀ s, Inv stream s → P s → Q x s): Spec stream P (.ret x) Q :=
  Outline.ret (stable P) h

theorem Spec.instr {f : State α → β × State α}
    (h : ∀ s, Inv stream s → P s → Inv stream (f s).2 ∧ Q (f s).1 (f s).2):
    Spec stream P (instr f) Q :=
  Outline.act (stable P) (fun _ => stable _) fun s x s' heq hi hp => by
    obtain ⟨hi', hq⟩ := h s hi hp
    rw [Option.some.inj heq] at hi' hq
    exact ⟨hi', trivial, hq⟩

theorem Spec.look {f : State α → β} (h : ∀ s, Inv stream s → P s → Q (f s) s): Spec stream P (look f) Q :=
  Spec.instr fun s hi hp => ⟨hi, h s hi hp⟩

theorem Spec.pre {P R : State α → Prop}
    {p : Prog (State α) β} (h : Spec stream R p Q) (hpre : ∀ s, Inv stream s → P s → R s) :
    Spec stream P p Q :=
  Outline.pre h (stable P) hpre

/-- The copy empties the buffer or completes the read, and it takes something if it can. -/
theorem outline_copyFromBuffer (hit : Bool) :
    Spec stream
      (fun s => Counted size waitAll totalSize s ∧ (hit = true →
        s.op.bytesTransferred < size ∧ s.buffer.offset < s.buffer.dataSize))
      copyFromBuffer
      fun done s => Counted size waitAll totalSize s ∧
        (done = true → s.op.bytesTransferred = size) ∧
        (done = false → Drained size waitAll totalSize s) ∧
        (hit = true → 0 < s.op.bytesTransferred) := by
  refine Spec.instr fun s hi ⟨hs, hhit⟩ => ?_
  have hcopied := copyBytes_spec hi.buffer hi.memory hi.bound
  generalize copyBytes s.op.buffer s.op.bytesTransferred s.buffer s.op.transactionSize = r
    at hcopied ⊢
  obtain ⟨done, dst, offset, src⟩ := r
  have hcounted : Counted size waitAll totalSize { s with
      op := { s.op with buffer := dst, bytesTransferred := offset }, buffer := src } :=
    ⟨⟨hs.transaction, hs.flag, hcopied.totalSize.trans hs.capacity⟩, hs.counted⟩
  have hcount := hcopied.count
  have hsize := hs.transaction
  refine ⟨hi.copy hs.counted hcopied, hcounted, fun hdone => (hcopied.all hdone).trans hsize,
    fun hdone => ⟨hcounted, (hcopied.some hdone).2, hsize ▸ (hcopied.some hdone).1⟩, fun h => ?_⟩
  obtain ⟨hshort, hdata⟩ := hhit h
  dsimp only at hcount ⊢
  omega

theorem outline_setDataSize {count : ℕ} :
    Spec stream (Refilled size waitAll totalSize count) (setDataSize count) fun _ s =>
      Counted size waitAll totalSize s ∧ (true = true →
        s.op.bytesTransferred < size ∧ s.buffer.offset < s.buffer.dataSize) := by
  refine Spec.instr fun s hi hs => ⟨hi.setDataSize hs.empty hs.inHand (hs.capacity ▸ hs.fits),
    ⟨⟨hs.transaction, hs.flag, hs.capacity⟩, rfl⟩, fun _ => ⟨hs.short, ?_⟩⟩
  exact hs.empty.2 ▸ hs.pos

theorem outline_addTransferred {stored count : ℕ} :
    Spec stream (Received size waitAll totalSize stored count) (addTransferred count) fun _ s =>
      Counted size waitAll totalSize s ∧ s.op.bytesTransferred = stored + count := by
  refine Spec.instr fun s hi hs => ?_
  have hbefore := hs.before
  subst hbefore
  exact ⟨hi.addTransferred hs.inHand (hs.transaction ▸ hs.fits),
    ⟨⟨hs.transaction, hs.flag, hs.capacity⟩, rfl⟩, rfl⟩

/-- A read into the buffer. -/
theorem outline_refill : Spec stream (Drained size waitAll totalSize)
    (sysRead .readAhead totalSize) fun answer s =>
      match answer with
      | .data bytes => Refilled size waitAll totalSize bytes.length s
      | .endOfStream => Drained size waitAll totalSize s ∧ s.Over
      | .failed error => Drained size waitAll totalSize s ∧
          socketStatusFromErrno error = .pending := by
  refine Outline.pick (stable _) (fun _ => stable _) fun s answer s' ⟨k, hk, heq⟩ hi hs => ?_
  subst heq
  cases hk with
  | @data bytes rest hbytes hlength hunread =>
    refine ⟨hi.refill hs.empty hs.counted hbytes (hs.capacity.symm ▸ hlength) hunread, trivial,
      ⟨hs.transaction, hs.flag, hs.capacity⟩, hs.empty, hs.short, ?_, length_pos_iff.mpr hbytes,
      hlength⟩
    have htake := memcpy_take bytes (Nat.zero_le s.buffer.ptr.length)
    rw [Nat.zero_add, take_zero, nil_append] at htake
    simp only [State.fill, hs.counted, nil_append]
    exact htake.symm
  | wouldBlock _ herror => exact ⟨hi, trivial, { hs with }, herror⟩
  | endOfStream hunread =>
    exact ⟨hi.atEnd hunread, trivial, { hs with }, rfl, hs.empty.content, hs.counted⟩

/-- A read into the memory of the caller. -/
theorem outline_receive {stored count : ℕ} : Spec stream
    (Received size waitAll totalSize stored count)
    (sysRead (.caller (stored + count)) (size - (stored + count))) fun answer s =>
      match answer with
      | .data bytes => Received size waitAll totalSize stored (count + bytes.length) s ∧
          0 < bytes.length
      | .endOfStream => Received size waitAll totalSize stored count s ∧ s.kernel.ended = true
      | .failed error => Received size waitAll totalSize stored count s ∧
          socketStatusFromErrno error = .pending := by
  refine Outline.pick (stable _) (fun _ => stable _) fun s answer s' ⟨k, hk, heq⟩ hi hs => ?_
  subst heq
  cases hk with
  | @data bytes rest hbytes hlength hunread =>
    obtain ⟨⟨htransaction, hflag, hcapacity⟩, hempty, rfl, rfl, hinHand, hfits⟩ := hs
    subst htransaction
    have hmemory := hi.memory
    have hpos := length_pos_iff.mpr hbytes
    refine ⟨hi.receive hempty hbytes hunread (by omega), trivial, ⟨⟨rfl, hflag, hcapacity⟩, hempty,
      rfl, by simp, ?_, by omega⟩, hpos⟩
    simp only [State.fill, Op.stored, ← Nat.add_assoc]
    rw [memcpy_take bytes (by omega), memcpy_take_of_le (by omega) (Nat.le_add_right _ _), hinHand,
      Op.stored, append_assoc]
  | wouldBlock _ herror => exact ⟨hi, trivial, { hs with }, herror⟩
  | endOfStream hunread =>
    exact ⟨hi.atEnd hunread, trivial, { hs with }, rfl⟩

theorem Drained.received (hs : Drained size waitAll totalSize s) :
    Received size waitAll totalSize s.op.bytesTransferred 0 s :=
  ⟨hs.toFixed, hs.empty, rfl, by rw [hs.counted]; rfl, by rw [hs.counted, append_nil]; rfl,
    Nat.le_of_lt hs.short⟩

theorem outline_socketSyncRead_refill :
    Spec stream (Drained size waitAll totalSize)
      (socketSyncRead (fun _ => .readAhead) totalSize false) fun r s =>
        (r.1 = true → Refilled size waitAll totalSize r.2 s) ∧
        (r.1 = false → Drained size waitAll totalSize s) := by
  refine Outline.bind outline_refill fun answer => ?_
  cases answer with
  | data bytes => exact Spec.ret fun s _ hs => ⟨fun _ => hs, nofun⟩
  | endOfStream => exact Spec.ret fun s _ hs => ⟨nofun, fun _ => hs.1⟩
  | failed error => exact Spec.ret fun s _ hs => ⟨nofun, fun _ => hs.1⟩

/-- The read of the caller is complete if it has to be, and has brought something. -/
theorem outline_socketSyncRead_receive {stored : ℕ} (hstored : stored < size) :
    Spec stream (Received size waitAll totalSize stored 0)
      (socketSyncRead (fun pos => .caller (stored + pos)) (size - stored) waitAll) fun r s =>
        Received size waitAll totalSize stored r.2 s ∧
        (r.1 = true → 0 < r.2 ∧ (waitAll = true → stored + r.2 = size)) := by
  unfold socketSyncRead
  by_cases hwait : waitAll = true
  · simp only [hwait, Bool.not_true, Bool.false_eq_true, if_false]
    refine Outline.loop (Received size true totalSize stored) 0 (fun transferred => ?_)
      fun _ => stable _
    by_cases hall : transferred = size - stored
    · simp only [hall, ne_eq, not_true_eq_false, if_false]
      exact Spec.ret fun s _ hs => ⟨hs, fun _ => ⟨by omega, fun _ => by omega⟩⟩
    · simp only [ne_eq, hall, not_false_eq_true, if_true]
      rw [Nat.sub_sub]
      refine Outline.bind outline_receive fun answer => ?_
      cases answer with
      | data bytes => exact Spec.ret fun s _ hs => hs.1
      | endOfStream => exact Spec.ret fun s _ hs => ⟨hs.1, fun h => by simp at h⟩
      | failed error => exact Spec.ret fun s _ hs => ⟨hs.1, fun h => by simp at h⟩
  · have hwait : waitAll = false := by simpa using hwait
    simp only [hwait, Bool.not_false, if_true]
    refine Outline.bind (@outline_receive _ stream size totalSize false stored 0) fun answer => ?_
    cases answer with
    | data bytes =>
      exact Spec.ret fun s _ hs => ⟨Nat.zero_add bytes.length ▸ hs.1, fun _ => ⟨hs.2, nofun⟩⟩
    | endOfStream => exact Spec.ret fun s _ hs => ⟨hs.1, nofun⟩
    | failed error => exact Spec.ret fun s _ hs => ⟨hs.1, nofun⟩

/-- What was read into the buffer is taken: this ends the read, unless it waits for all and the
buffer is empty again. -/
theorem outline_takeRefill {count : ℕ} {k : Bool → Prog (State α) β}
    (hk : ∀ done, Spec stream (fun s => Counted size waitAll totalSize s ∧
      ((done || !waitAll) = true → Success s) ∧ (done = false → Drained size waitAll totalSize s))
      (k done) Q) :
    Spec stream (Refilled size waitAll totalSize count)
      (.bind (setDataSize count) fun _ => .bind copyFromBuffer k) Q := by
  refine Outline.bind outline_setDataSize fun _ => Outline.bind (outline_copyFromBuffer true)
    fun done => (hk done).pre fun s _ hs => ⟨hs.1, fun hend => ?_, hs.2.2.1⟩
  by_cases hdone : done = true
  · exact .of_all ((hs.2.1 hdone).trans hs.1.transaction.symm)
  · have hflag : waitAll = false := by simpa [hdone] using hend
    exact .of_some (hs.1.flag.trans hflag) (hs.2.2.2 rfl)

/-- Both ways of reading begin with what the buffer has. -/
theorem outline_takeFirst : Spec stream (Counted size waitAll totalSize) copyFromBuffer
    fun done s => Counted size waitAll totalSize s ∧ (done = true → Success s) ∧
      (done = false → Drained size waitAll totalSize s) :=
  ((outline_copyFromBuffer false).pre fun _ _ hs => ⟨hs, nofun⟩).post fun _ _ _ hs =>
    ⟨hs.1, fun hdone => .of_all ((hs.2.1 hdone).trans hs.1.transaction.symm), hs.2.2.1⟩

theorem outline_implRead :
    Spec stream (Counted size waitAll totalSize) (implRead size waitAll) fun done s =>
      Counted size waitAll totalSize s ∧ (done = true → Success s) := by
  refine Outline.bind outline_takeFirst fun done => ?_
  split
  · next hdone => exact Spec.ret fun s _ hs => ⟨hs.1, fun _ => hs.2.1 hdone⟩
  next hdone =>
  refine Outline.bind (M := fun bytesTransferred s => Drained size waitAll totalSize s ∧
    s.op.bytesTransferred = bytesTransferred) (Spec.look fun s _ hs =>
      ⟨hs.2.2 (by simpa using hdone), rfl⟩) fun bytesTransferred => ?_
  split
  · next hpartial =>
    simp only [ne_eq, Bool.and_eq_true, decide_eq_true_eq, Bool.not_eq_true'] at hpartial
    refine Spec.ret fun s _ hs => ⟨hs.1.toCounted, fun _ => ?_⟩
    exact .of_some (hs.1.flag.trans hpartial.2) (hs.2 ▸ Nat.pos_of_ne_zero hpartial.1)
  refine Outline.bind (M := fun total s => Drained size waitAll totalSize s ∧ total = totalSize)
    (Spec.look fun s _ hs => ⟨hs.1, hs.1.capacity⟩) fun total => ?_
  refine .obtain (R := fun _ : PLift (total = totalSize) => Drained size waitAll totalSize)
    (stable _) (fun s _ hs => ⟨⟨hs.2⟩, hs.1⟩) fun ⟨htotal⟩ => ?_
  subst htotal
  split
  · -- Through the buffer: every turn starts with it emptied.
    refine Outline.loop (fun _ => Drained size waitAll total) () (fun _ => ?_) fun _ => stable _
    refine Outline.bind (M := fun bytesTransferred s => Drained size waitAll total s ∧
      s.op.bytesTransferred = bytesTransferred) (Spec.look fun s _ hs => ⟨hs, rfl⟩)
      fun bytesTransferred => ?_
    split
    · refine Outline.bind (outline_socketSyncRead_refill.pre fun s _ hs => hs.1) ?_
      rintro ⟨result, bytes⟩
      dsimp only
      split
      · next hresult =>
        refine (outline_takeRefill fun done => ?_).pre fun s _ hs => hs.1 hresult
        split
        · next hend => exact Spec.ret fun s _ hs => ⟨hs.1, fun _ => hs.2.1 hend⟩
        next hend =>
        have hdone : done = false := by
          by_contra h
          exact hend (by simp [h])
        split
        · exact Spec.ret fun s _ hs => hs.2.2 hdone
        · exact Spec.ret fun s _ hs => ⟨hs.1, nofun⟩
      · next hresult =>
        exact Spec.ret fun s _ hs => ⟨(hs.2 (by simpa using hresult)).toCounted, nofun⟩
    · next hle =>
      exact Spec.ret fun s _ hs => absurd (hs.2 ▸ Nat.le_of_lt hs.1.short) hle
  · -- Straight to the caller.
    refine Outline.bind (M := fun bytesTransferred s => Drained size waitAll total s ∧
      s.op.bytesTransferred = bytesTransferred) (Spec.look fun s _ hs => ⟨hs, rfl⟩)
      fun bytesTransferred => ?_
    refine .obtain (R := fun _ : PLift (bytesTransferred < size) =>
      Received size waitAll total bytesTransferred 0) (stable _)
      (fun s _ hs => ⟨⟨hs.2 ▸ hs.1.short⟩, hs.2 ▸ hs.1.received⟩) fun ⟨hshort⟩ => ?_
    refine Outline.bind (outline_socketSyncRead_receive hshort) ?_
    rintro ⟨result, bytes⟩
    refine .obtain (R := fun _ : PLift (result = true → 0 < bytes ∧
      (waitAll = true → bytesTransferred + bytes = size)) =>
        Received size waitAll total bytesTransferred bytes) (stable _)
      (fun s _ hs => ⟨⟨hs.2⟩, hs.1⟩) fun ⟨hresult⟩ => ?_
    refine Outline.bind outline_addTransferred fun _ => Spec.ret fun s _ hs =>
      ⟨hs.1, fun hdone => ⟨fun hflag => ?_, fun _ => ?_⟩⟩
    · exact hs.2.trans (((hresult hdone).2 (hs.1.flag.symm.trans hflag)).trans
        hs.1.transaction.symm)
    · exact hs.2 ▸ Nat.add_pos_right _ (hresult hdone).1

theorem outline_transferStatus {stored : ℕ} (hstored : stored < size) (answer : Answer α) :
    Spec stream
      (fun s => match answer with
        | .data bytes => Received size waitAll totalSize stored bytes.length s ∧ 0 < bytes.length
        | .endOfStream => Received size waitAll totalSize stored 0 s ∧ s.kernel.ended = true
        | .failed error => Received size waitAll totalSize stored 0 s ∧
            socketStatusFromErrno error = .pending)
      (transferStatus answer) fun status s => Counted size waitAll totalSize s ∧
        (status = .success → Success s) ∧ (status = .disconnected → s.Over) := by
  have hnone : ∀ s : State α, Received size waitAll totalSize stored 0 s →
      Counted size waitAll totalSize s := fun s hs =>
    ⟨hs.toFixed, length_eq_zero_iff.mp hs.length⟩
  cases answer with
  | data bytes =>
    refine .obtain (R := fun _ : PLift (0 < bytes.length) =>
      Received size waitAll totalSize stored bytes.length) (stable _)
      (fun s _ hs => ⟨⟨hs.2⟩, hs.1⟩) fun ⟨hpos⟩ => ?_
    refine Outline.bind outline_addTransferred fun _ => Outline.bind (M := fun op s =>
      (Counted size waitAll totalSize s ∧ s.op.bytesTransferred = stored + bytes.length) ∧ s.op = op)
      (Spec.look fun s _ hs => ⟨hs, rfl⟩) fun op => ?_
    split
    · exact Spec.ret fun s _ hs => ⟨hs.1.1, nofun, nofun⟩
    · next hall =>
      refine Spec.ret fun s hi hs => ⟨hs.1.1, fun _ => ⟨fun hflag => ?_, fun _ => ?_⟩, nofun⟩
      · obtain ⟨hs, rfl⟩ := hs
        have hbound := hi.bound
        simp only [hflag, Bool.true_and, decide_eq_true_eq] at hall
        omega
      · rw [hs.1.2]
        omega
  | endOfStream =>
    refine Outline.bind (M := fun op s => (Received size waitAll totalSize stored 0 s ∧
      s.kernel.ended = true) ∧ s.op = op) (Spec.look fun s _ hs => ⟨hs, rfl⟩) fun op => ?_
    split
    · exact Spec.ret fun s _ hs => ⟨hnone s hs.1.1, nofun, fun _ =>
        ⟨hs.1.2, hs.1.1.empty.content, (hnone s hs.1.1).counted⟩⟩
    · next hall =>
      refine Spec.ret fun s _ hs => ⟨hnone s hs.1.1, fun _ => ?_, nofun⟩
      obtain ⟨⟨hs, -⟩, rfl⟩ := hs
      have htransaction := hs.transaction
      have hbefore := hs.before
      omega
  | failed error =>
    exact Spec.ret fun s _ hs => ⟨hnone s hs.1, fun h => absurd (hs.2.symm.trans h) nofun,
      fun h => absurd (hs.2.symm.trans h) nofun⟩

theorem outline_readSyscall :
    Spec stream (Counted size waitAll totalSize) readSyscall fun status s =>
      Counted size waitAll totalSize s ∧ (status = .success → Success s) ∧
        (status = .disconnected → s.Over) := by
  refine Outline.bind outline_takeFirst fun done => ?_
  split
  · next hdone => exact Spec.ret fun s _ hs => ⟨hs.1, fun _ => hs.2.1 hdone, nofun⟩
  next hdone =>
  refine Outline.bind (M := fun op s => Drained size waitAll totalSize s ∧ s.op = op)
    (Spec.look fun s _ hs => ⟨hs.2.2 (by simpa using hdone), rfl⟩) fun op => ?_
  split
  · next hpartial =>
    simp only [ne_eq, Bool.and_eq_true, decide_eq_true_eq, Bool.not_eq_true'] at hpartial
    refine Spec.ret fun s _ hs => ⟨hs.1.toCounted, fun _ => ?_, nofun⟩
    obtain ⟨hs, rfl⟩ := hs
    exact .of_some hpartial.2 (Nat.pos_of_ne_zero hpartial.1)
  refine Outline.bind (M := fun total s => (Drained size waitAll totalSize s ∧ s.op = op) ∧
    s.buffer.totalSize = total) (Spec.look fun s _ hs => ⟨hs, rfl⟩) fun total => ?_
  refine .obtain (R := fun _ : PLift (total = totalSize ∧ op.transactionSize = size ∧
      op.bytesTransferred < size) => fun s => Drained size waitAll totalSize s ∧ s.op = op)
    (stable _) (fun s _ ⟨⟨hs, hop⟩, htotal⟩ => ⟨⟨htotal.symm.trans hs.capacity,
      hop ▸ hs.transaction, hop ▸ hs.short⟩, hs, hop⟩) ?_
  rintro ⟨rfl, rfl, hshort⟩
  split
  · -- Through the buffer.
    refine Spec.pre (R := Drained op.transactionSize waitAll total) ?_ fun s _ hs => hs.1
    refine Outline.loop (fun _ => Drained op.transactionSize waitAll total) () (fun _ => ?_)
      fun _ => stable _
    refine Outline.bind (M := fun now s => Drained op.transactionSize waitAll total s ∧ s.op = now)
      (Spec.look fun s _ hs => ⟨hs, rfl⟩) fun now => ?_
    refine .obtain (R := fun _ : PLift (now.waitAll = waitAll ∧
        now.bytesTransferred < now.transactionSize) => Drained op.transactionSize waitAll total)
      (stable _) (fun s _ ⟨hs, hnow⟩ => ⟨⟨hnow ▸ hs.flag, ?_⟩, hs⟩) ?_
    · rw [← hnow, hs.transaction]
      exact hs.short
    rintro ⟨hflag, hnow⟩
    simp only [hnow, if_true, hflag]
    refine Outline.bind outline_refill fun answer => ?_
    cases answer with
    | data bytes =>
      refine outline_takeRefill fun done => ?_
      split
      · next hend => exact Spec.ret fun s _ hs => ⟨hs.1, fun _ => hs.2.1 hend, nofun⟩
      next hend =>
      have hdone : done = false := by
        by_contra h
        exact hend (by simp [h])
      split
      · exact Spec.ret fun s _ hs => ⟨hs.1, nofun, nofun⟩
      · exact Spec.ret fun s _ hs => hs.2.2 hdone
    | endOfStream => exact Spec.ret fun s _ hs => ⟨hs.1.toCounted, nofun, fun _ => hs.2⟩
    | failed error =>
      exact Spec.ret fun s _ hs => ⟨hs.1.toCounted, fun h => absurd (hs.2.symm.trans h) nofun,
        fun h => absurd (hs.2.symm.trans h) nofun⟩
  · -- Straight to the caller.
    refine Outline.bind ((@outline_receive _ stream op.transactionSize total waitAll
      op.bytesTransferred 0).pre fun s _ ⟨hs, hop⟩ => hop ▸ hs.received) fun answer => ?_
    refine (outline_transferStatus hshort answer).pre fun s _ hs => ?_
    cases answer with
    | data bytes => exact ⟨Nat.zero_add bytes.length ▸ hs.1, hs.2⟩
    | endOfStream => exact hs
    | failed error => exact hs

/-! ### Sequences of reads -/

theorem outline_begin {buffer : List α} :
    Spec stream (fun s => s.op = .none ∧ s.inHand = []) (begin buffer waitAll) fun _ s =>
      ∃ totalSize, Counted buffer.length waitAll totalSize s := by
  refine Spec.instr fun s hi hs => ⟨?_, s.buffer.totalSize, ⟨rfl, rfl, rfl⟩, hs.2⟩
  have hconserved := hi.conserved
  simp only [State.between, hs.1, Op.none, Op.stored, take_nil] at hconserved
  exact { hi with memory := rfl, bound := Nat.zero_le _, conserved := hconserved }

variable {status : Status}

theorem outline_finish :
    Spec stream (fun s => Counted size waitAll totalSize s ∧ (status = .success → Success s) ∧
        (status = .disconnected → s.Over))
      (finish status) fun _ s => s.op = .none ∧ s.inHand = [] := by
  refine Spec.instr fun s hi ⟨hs, hsuccess, hover⟩ => ⟨?_, rfl, hs.counted⟩
  have hconserved := hi.conserved
  refine { hi with memory := rfl, bound := Nat.le_refl 0, conserved := ?_, ended := ?_, noMore := ?_ }
  · simp only [State.delivered, State.between, flatMap_append, flatMap_cons,
      flatMap_nil, append_nil, Op.none, Op.stored, take_nil, nil_append,
      append_assoc] at hconserved ⊢
    exact hconserved
  · intro x hx
    rcases mem_append.mp hx with hx | hx
    · exact hi.ended x hx
    · obtain rfl := mem_singleton.mp hx
      exact ⟨hi.memory, hi.bound, fun h => (hsuccess h).whole, fun h => (hsuccess h).some⟩
  · intro x hx hx'
    rcases mem_append.mp hx with hx | hx
    · exact hi.noMore x hx hx'
    · obtain rfl := mem_singleton.mp hx
      exact hover hx'

theorem Status.Early.ne_success (h : status.Early) : status ≠ .success := by
  rcases h with rfl | rfl <;> exact nofun

theorem Status.Early.ne_disconnected (h : status.Early) :
    status ≠ .disconnected := by
  rcases h with rfl | rfl <;> exact nofun

/-- A choice that leaves the state alone. -/
theorem Spec.pick {r : State α → β → State α → Prop}
    (h : ∀ s x s', Inv stream s → r s x s' → P s → s' = s ∧ Q x s) :
    Spec stream P (.pick r) Q :=
  Outline.pick (stable P) (fun _ => stable _) fun s x s' hr hi hp => by
    obtain ⟨rfl, hq⟩ := h s x s' hi hr hp
    exact ⟨hi, trivial, hq⟩

theorem outline_proceed :
    Spec stream (Counted size waitAll totalSize) proceed fun _ s =>
      s.op = .none ∧ s.inHand = [] := by
  refine Outline.loop (fun _ => Counted size waitAll totalSize) () (fun _ => ?_) fun _ => stable _
  refine Outline.bind (M := fun early s => (∀ status, early = some status → status.Early) ∧
    Counted size waitAll totalSize s) (Spec.pick fun s early s' _ hr hs => ⟨hr.1, hr.2, hs⟩)
    fun early => Outline.assume (stable _) fun hearly => ?_
  cases early with
  | some status =>
    have hstatus := hearly status rfl
    exact Outline.bind (outline_finish.pre fun s _ hs => ⟨hs, fun h => absurd h hstatus.ne_success,
      fun h => absurd h hstatus.ne_disconnected⟩) fun _ => Spec.ret fun s _ hs => hs
  | none =>
    refine Outline.bind outline_readSyscall fun status => ?_
    split
    · exact Spec.ret fun s _ hs => hs.1
    refine Outline.bind (M := fun (final : Status) s => Counted size waitAll totalSize s ∧
      (final = .success → Success s) ∧ (final = .disconnected → s.Over))
      (Spec.pick fun s final s' _ hr hs => ⟨hr.1, ?_⟩) fun final =>
        Outline.bind outline_finish fun _ => Spec.ret fun s _ hs => hs
    rcases hr.2 with rfl | hearly
    · exact hs
    · exact ⟨hs.1, fun h => absurd h hearly.ne_success, fun h => absurd h hearly.ne_disconnected⟩

theorem outline_setSocketBuffer {bufferSize : ℕ} :
    Spec stream (fun s => s.op = .none ∧ s.inHand = []) (setSocketBuffer bufferSize) fun _ s =>
      s.op = .none ∧ s.inHand = [] := by
  refine Outline.pick (stable _) (fun _ => stable _) fun s _ s' hr hi hs => ?_
  dsimp only at hr
  split at hr
  · next hgrows =>
    obtain ⟨fresh, hfresh, rfl⟩ := hr
    have hcapacity := hi.buffer.capacity
    have hdata := hi.buffer.dataSize
    have hcontent : ({ s.buffer with ptr := s.buffer.ptr ++ fresh, totalSize := bufferSize } :
        IoBuffer α).content = s.buffer.content := by
      simp only [IoBuffer.content]
      rw [take_append_of_le_length (by omega)]
    refine ⟨?_, trivial, hs⟩
    refine { hi with buffer := ⟨?_, hi.buffer.offset, ?_⟩, conserved := ?_, noMore := ?_ }
    · simp only [length_append, hfresh]
      omega
    · exact Nat.le_trans hdata (Nat.le_of_lt hgrows)
    · have hconserved := hi.conserved
      simp only [State.between, hcontent] at hconserved ⊢
      exact hconserved
    · intro x hx hx'
      obtain ⟨hended, hnone, hinHand⟩ := hi.noMore x hx hx'
      exact ⟨hended, hcontent.trans hnone, hinHand⟩
  · subst hr
    exact ⟨hi, trivial, hs⟩

theorem outline_perform {call : Call α} :
    Spec stream (fun s => s.op = .none ∧ s.inHand = []) (perform call) fun _ s =>
      s.op = .none ∧ s.inHand = [] := by
  cases call with
  | setSocketBuffer bufferSize => exact outline_setSocketBuffer
  | read buffer waitAll attempted =>
    refine Outline.bind outline_begin fun _ => .obtain (stable _) (fun s _ hs => hs)
      fun totalSize => ?_
    refine Outline.bind (M := fun done s => Counted buffer.length waitAll totalSize s ∧
      (done = true → Success s)) ?_ fun done => ?_
    · split
      · exact outline_implRead
      · exact Spec.ret fun s _ hs => ⟨hs, nofun⟩
    · split
      · next hdone => exact outline_finish.pre fun s _ hs => ⟨hs.1, fun _ => hs.2 hdone, nofun⟩
      · exact outline_proceed.pre fun s _ hs => hs.1

theorem outline_thread :
    Spec stream (fun s => s.op = .none ∧ s.inHand = []) thread fun _ _ => True := by
  refine Outline.loop (fun _ s => s.op = .none ∧ s.inHand = []) () (fun _ => ?_) fun _ => stable _
  exact Outline.bind (M := fun (_ : Call α) (s : State α) => s.op = .none ∧ s.inHand = [])
    (Spec.pick fun s _ s' _ hr hs => ⟨hr, hs⟩) fun call => Outline.bind outline_perform fun _ =>
      Spec.ret fun s _ hs => hs

end Outlines

/-! ### The theorem -/

/-- An object before its first read. -/
structure Begins (stream : List α) (s : State α) : Prop where
  capacity : s.buffer.ptr.length = s.buffer.totalSize
  empty : s.buffer.Empty
  kernel : s.kernel = ⟨stream, false⟩
  op : s.op = .none
  ended : s.ended = []
  inHand : s.inHand = []
  misfilled : s.misfilled = false

theorem Begins.inv {stream : List α} (h : Begins stream s) : Inv stream s where
  buffer := ⟨h.capacity, Nat.le_of_eq (h.empty.2.trans h.empty.1.symm), h.empty.1 ▸ Nat.zero_le _⟩
  memory := by rw [h.op]; rfl
  bound := by rw [h.op]; exact Nat.le_refl 0
  conserved := by
    simp [State.delivered, State.between, h.ended, h.op, h.inHand, h.empty.content, h.kernel,
      Op.stored, Op.none]
  refills := h.misfilled
  kernel := by rw [h.kernel]; rintro ⟨⟩
  ended := by rw [h.ended]; rintro _ ⟨⟩
  noMore := by rw [h.ended]; rintro _ ⟨⟩

/-- **Reads keep the stream.** In every state of every sequence of reads:

* what the reads have stored, in their order, then what a system call has just put into memory, then
  what the read-ahead buffer holds, then what is unread, is the stream;
* the bounds of the buffer hold, and no refill was ever issued while it was not empty;
* no read stores more than its size, and a read that succeeded has all of it, if it waits for all, and
  otherwise some of it, if it has a size;
* a read is reported disconnected only when nothing of the stream is left. -/
theorem reads_preserve_stream {stream : List α} {s : State α} (hs : Begins stream s)
    {c : Config (State α) Unit} (hrun : Run ⟨s, fun _ => thread⟩ c) :
    (c.shared.ended.flatMap fun x => x.1.buffer.take x.1.bytesTransferred) ++
        c.shared.op.buffer.take c.shared.op.bytesTransferred ++ c.shared.inHand ++
        (c.shared.buffer.ptr.take c.shared.buffer.dataSize).drop c.shared.buffer.offset ++
        c.shared.kernel.unread = stream ∧
    (c.shared.buffer.offset ≤ c.shared.buffer.dataSize ∧
      c.shared.buffer.dataSize ≤ c.shared.buffer.totalSize) ∧
    c.shared.misfilled = false ∧
    (∀ x ∈ c.shared.ended, x.1.bytesTransferred ≤ x.1.transactionSize ∧
      (x.2 = .success →
        (x.1.waitAll = true → x.1.bytesTransferred = x.1.transactionSize) ∧
        (0 < x.1.transactionSize → 1 ≤ x.1.bytesTransferred))) ∧
    ∀ x ∈ c.shared.ended, x.2 = .disconnected → c.shared.kernel.unread = [] ∧
      (c.shared.buffer.ptr.take c.shared.buffer.dataSize).drop c.shared.buffer.offset = [] := by
  have hthread : ∀ t : Unit, Outline (poolTerms (Inv stream) (fun _ _ _ => True) t)
      (fun s => s.op = .none ∧ s.inHand = []) thread fun _ _ => True := fun _ => outline_thread
  have hi := invariant_of_outlines hs.inv (fun _ => ⟨hs.op, hs.inHand⟩) hthread hrun
  refine ⟨?_, ⟨hi.buffer.offset, hi.buffer.dataSize⟩, hi.refills, fun x hx => ?_, fun x hx hx' => ?_⟩
  · have hconserved := hi.conserved
    simp only [State.between, ← append_assoc] at hconserved
    exact hconserved
  · have hend := hi.ended x hx
    exact ⟨hend.bound, fun h => ⟨hend.whole h, hend.some h⟩⟩
  · obtain ⟨hended, hcontent, -⟩ := hi.noMore x hx hx'
    exact ⟨hi.kernel hended, hcontent⟩

/-- Two of three bytes are read; the third stays in the buffer. -/
theorem reads_preserve_stream_readAhead : ∃ c : Config (State ℕ) Unit,
    Run ⟨⟨⟨[0, 0, 0, 0], 4, 0, 0⟩, ⟨[1, 2, 3], false⟩, .none, [], [], false⟩, fun _ => thread⟩ c ∧
      c.shared.ended = [(⟨[1, 2], 2, 2, true⟩, .success)] ∧
      (c.shared.buffer.ptr.take c.shared.buffer.dataSize).drop c.shared.buffer.offset ++
        c.shared.kernel.unread = [3] := by
  have hrun : ∃ c : Config (State ℕ) Unit,
      Run ⟨⟨⟨[0, 0, 0, 0], 4, 0, 0⟩, ⟨[1, 2, 3], false⟩, .none, [], [], false⟩, fun _ => thread⟩ c ∧
      c.shared.ended = [(⟨[1, 2], 2, 2, true⟩, .success)] ∧ c.shared.op = .none ∧
      c.shared.inHand = [] := by
    apply Exists.intro
    apply And.intro
    · apply Run.of_steps (t := ())
      exact .loop (.seq (.seq (.pick (x := Call.read [0, 0] true true) rfl) (.seq (.seq (.act rfl) (.seq
        (.seq (.act rfl) (.seq (.act rfl) (.seq (.act rfl) (.loop (.seq (.seq (.act rfl) (.seq
          (.seq (.pick (x := Answer.data [1, 2, 3]) ⟨_, .data nofun (by decide)
            (append_nil _).symm, rfl⟩)
            (.refl _ _)) (Prog.steps_of_eval 1 rfl))) (.refl _ _))))))
        (.act rfl))) (.refl _ _))) (.refl _ _))
    · exact ⟨rfl, rfl, rfl⟩
  obtain ⟨c, hrun, hended, hop, hinHand⟩ := hrun
  refine ⟨c, hrun, hended, ?_⟩
  have hstream := (reads_preserve_stream ⟨rfl, ⟨rfl, rfl⟩, rfl, rfl, rfl, rfl, rfl⟩ hrun).1
  rw [hended, hop, hinHand] at hstream
  simpa [Op.none] using hstream

end Stream

end Asyncio
