import Asyncio.Concurrent.Program
import Asyncio.Combiner.Word

/-!
# The combiner

An object is served by whichever thread finds its head word at zero. Everybody else leaves work on
the head word: an operation node on top of the chain, or signal bits in the word on top. The
serving thread captures the chain, reverses it, dispatches its entries, and tries to set the head
back to zero.

This file is the code: `combiner`, the functions that push onto the head word, and the sweep they
share. The handler of a dispatched entry belongs to the backend and is a parameter, `Backend`; it is
any program over the object's own state.

## Memory and history

`Mem` is what the code reads and writes. `Ghost` is a record of what has happened, for the proofs:
an instruction's answer and its effect on `Mem` never depend on it (`instr` cannot express that).
The one exception is `halted`, which ends a run: the model goes up to the dispatch of a DELETE tag.

A call that the serving thread makes from inside a handler is, in this model, a call of another
thread made while the serving thread waits.
-/

namespace Asyncio

namespace Combiner

open Concurrent Function

/-! ### State -/

/-- The memory of one object: the tag word pair of its header, the link fields of the operation
nodes, and the object's own state. -/
structure Mem (α O : Type) where
  /-- `header.tag.low` -/
  low : TaggedPtr α
  /-- `header.tag.high`, the generation -/
  high : ℕ
  /-- `op->next` -/
  next : α → TaggedPtr α
  obj : O

/-- Who may write a node's link field. -/
inductive Place (τ : Type) where
  /-- Nobody uses the node. -/
  | free
  /-- A call of thread `t` holds it, not yet pushed. -/
  | held (t : τ)
  /-- It was pushed and not yet dispatched. -/
  | queued
  deriving DecidableEq

/-- One successful modification of the head word that leaves work on it. -/
inductive Mod (α : Type) where
  /-- An operation node was pushed. -/
  | push (a : α)
  /-- Signal bits were set. -/
  | signal (bits : Tag)
  deriving DecidableEq

/-- The signal bits a modification sets. -/
def Mod.tag {α : Type} : Mod α → Tag
  | .signal bits => bits
  | _ => 0#6

/-- The node a modification pushes. -/
def Mod.node {α : Type} : Mod α → Option α
  | .push a => some a
  | _ => none

/-- One entry of the chain: its node if it has one, its signal bits, and the modifications of the
head word that made it. -/
structure Entry (α : Type) where
  node : Option α
  tag : Tag
  mods : List (Mod α)

namespace Entry

variable {α : Type}

/-- The entry nothing has been left on. Captured, it stands for what an acquirer will pass. -/
def empty : Entry α := ⟨none, 0#6, []⟩

/-- The entry of a node just pushed. -/
def ofPush (a : α) : Entry α := ⟨some a, 0#6, [.push a]⟩

/-- The entry with more signal bits. -/
def signal (e : Entry α) (bits : Tag) : Entry α :=
  ⟨e.node, e.tag ||| bits, e.mods ++ [.signal bits]⟩

end Entry

/-- What has happened so far. -/
structure Ghost (α τ : Type) where
  place : α → Place τ
  /-- The right to push DELETE, which one call per incarnation has. -/
  deleteRight : Place τ
  /-- The threads that took the head from zero and did not yet set it back. -/
  owners : List τ
  /-- Every modification of the head word that left work, oldest first. -/
  mods : List (Mod α)
  /-- The entries given to `combinerDispatch`, oldest first. -/
  dispatched : List (Entry α)
  /-- What the owner has captured and will dispatch, in this order. -/
  captured : List (Entry α)
  /-- The entry at the bottom of the head's chain, which has no node. -/
  base : Entry α
  /-- The entries above it, newest first. -/
  stack : List (Entry α)
  /-- The owner is inside a dispatch, or sweeping a dying object. -/
  busy : Bool
  /-- A DELETE tag has been dispatched. -/
  halted : Bool

structure State (α τ O : Type) where
  mem : Mem α O
  ghost : Ghost α τ

/-! ### What is recorded -/

namespace Ghost

variable {α τ : Type} [DecidableEq α] [DecidableEq τ]

/-- Thread `t` changed the head word from `p` to `q`. -/
def track (t : τ) (p q : TaggedPtr α) (g : Ghost α τ) : Ghost α τ :=
  if p = .null ∧ q ≠ .null then { g with owners := t :: g.owners }
  else if p ≠ .null ∧ q = .null then { g with owners := g.owners.erase t }
  else g

/-- A node was pushed onto a head that was not zero. -/
def push (a : α) (g : Ghost α τ) : Ghost α τ :=
  { g with
    mods := g.mods ++ [.push a]
    stack := .ofPush a :: g.stack
    place := update g.place a .queued }

/-- A node was pushed onto a zero head: the pusher will run it first. -/
def pushFirst (a : α) (g : Ghost α τ) : Ghost α τ :=
  { g with
    mods := g.mods ++ [.push a]
    captured := [.ofPush a]
    place := update g.place a .queued }

/-- Signal bits were set in the head word. -/
def signal (bits : Tag) (g : Ghost α τ) : Ghost α τ :=
  match g.stack with
  | [] => { g with mods := g.mods ++ [.signal bits], base := g.base.signal bits }
  | e :: es => { g with mods := g.mods ++ [.signal bits], stack := e.signal bits :: es }

/-- The head was taken from zero without a node. -/
def claim (g : Ghost α τ) : Ghost α τ := { g with captured := [.empty] }

/-- The caller of `combinerAcquire` passes `forRun`. A node passed here counts as pushed by the
acquisition: before everything that came onto the head since. -/
def passForRun (forRun : Option α) (g : Ghost α τ) : Ghost α τ :=
  match forRun with
  | none => { g with captured := [] }
  | some a =>
    let n := (g.dispatched.flatMap Entry.mods).length
    { g with
      mods := g.mods.take n ++ .push a :: g.mods.drop n
      captured := [.ofPush a]
      place := update g.place a .queued }

/-- The chain was captured. A bottom entry without signal bits is the stub itself. -/
def capture (g : Ghost α τ) : Ghost α τ :=
  { g with
    captured := (if g.base.tag = 0#6 then [] else [g.base]) ++ g.stack.reverse
    base := .empty
    stack := [] }

/-- `combinerDispatch` was called with this node and tag. -/
def beginDispatch (op : Option α) (tag : Tag) (g : Ghost α τ) : Ghost α τ :=
  { g with
    dispatched := g.dispatched ++ [⟨op, tag, g.captured.head?.elim [] Entry.mods⟩]
    captured := g.captured.tail
    place := match op with
      | some a => update g.place a .free
      | none => g.place
    busy := true
    halted := tag.has tagDelete }

/-- The owner begins or ends its work on the object's own state. -/
def setBusy (busy : Bool) (g : Ghost α τ) : Ghost α τ := { g with busy := busy }

end Ghost

/-! ### Instructions -/

section Instructions

variable {α τ O : Type} [DecidableEq α] [DecidableEq τ]

/-- One atomic access of thread `t`. `f` is what it does; `note` is what is recorded, given the
answer. -/
def instr {β : Type} (t : τ) (f : Mem α O → β × Mem α O)
    (note : β → Ghost α τ → Ghost α τ) : Prog (State α τ O) β :=
  .act fun s =>
    if s.ghost.halted then none
    else some ((f s.mem).1,
      ⟨(f s.mem).2, (note (f s.mem).1 s.ghost).track t s.mem.low (f s.mem).2.low⟩)

/-- Record something that is no access. -/
def note (t : τ) (f : Ghost α τ → Ghost α τ) : Prog (State α τ O) Unit :=
  instr t (fun m => ((), m)) fun _ => f

/-- `__uint64_atomic_load(&object->header.tag.low)` -/
def loadLow (t : τ) : Prog (State α τ O) (TaggedPtr α) :=
  instr t (fun m => (m.low, m)) fun _ g => g

/-- `__uint64_atomic_compare_and_swap(&object->header.tag.low, expected, desired)` -/
def casLow (t : τ) (expected desired : TaggedPtr α) (won : Ghost α τ → Ghost α τ) :
    Prog (State α τ O) Bool :=
  instr t (fun m => if m.low = expected then (true, { m with low := desired }) else (false, m))
    fun ok g => if ok then won g else g

/-- `__uint128_atomic_compare_and_swap(&object->header.tag, &expected, desired)`, which also
answers the pair it saw. -/
def casTag (t : τ) (expected desired : TaggedPtr α × ℕ) (won : Ghost α τ → Ghost α τ) :
    Prog (State α τ O) (Bool × TaggedPtr α × ℕ) :=
  instr t
    (fun m =>
      if (m.low, m.high) = expected then
        ((true, m.low, m.high), { m with low := desired.1, high := desired.2 })
      else ((false, m.low, m.high), m))
    fun r g => if r.1 then won g else g

/-- `__uint64_atomic_fetch_or(&object->header.tag.low, bits)` -/
def fetchOrLow (t : τ) (bits : Tag) : Prog (State α τ O) (TaggedPtr α) :=
  instr t (fun m => (m.low, { m with low := m.low.or bits })) fun _ => Ghost.signal bits

/-- `__uint64_atomic_fetch_and_add(&object->header.tag.low, COMBINER_TAG_DELETE)` -/
def fetchAddDelete (t : τ) : Prog (State α τ O) (TaggedPtr α) :=
  instr t (fun m => (m.low, { m with low := ⟨m.low.node, m.low.tag + tagDelete⟩ }))
    fun _ g => { g.signal tagDelete with deleteRight := .queued }

/-- `op->next = p` -/
def storeNext (t : τ) (a : α) (p : TaggedPtr α) : Prog (State α τ O) Unit :=
  instr t (fun m => ((), { m with next := update m.next a p })) fun _ g => g

/-- `op->next` -/
def loadNext (t : τ) (a : α) : Prog (State α τ O) (TaggedPtr α) :=
  instr t (fun m => (m.next a, m)) fun _ g => g

/-- `next = op->next; op->next = p`: the plain accesses of one turn of the reversal. -/
def swapNext (t : τ) (a : α) (p : TaggedPtr α) : Prog (State α τ O) (TaggedPtr α) :=
  instr t (fun m => (m.next a, { m with next := update m.next a p })) fun _ g => g

/-- Run a program of the object's own state. -/
def onObject (t : τ) : {β : Type} → Prog O β → Prog (State α τ O) β
  | _, .ret x => .ret x
  | _, .act f => .act fun s =>
      if s.ghost.halted then none
      else (f s.mem.obj).map fun r => (r.1, ⟨{ s.mem with obj := r.2 }, s.ghost⟩)
  | _, .pick r => .pick fun s x s' =>
      s.ghost.halted = false ∧ ∃ o, r s.mem.obj x o ∧ s' = ⟨{ s.mem with obj := o }, s.ghost⟩
  | _, .bind p k => .bind (onObject t p) fun x => onObject t (k x)
  | _, .loop body x => .loop (fun y => onObject t (body y)) x

end Instructions

/-! ### The functions -/

/-- What the combiner takes from the backend and from the object it serves. -/
structure Backend (α O : Type) where
  /-- What the object's own state records of the dispatch of an entry. -/
  enter : Option α → O → O
  /-- `methodImpl.combinerTaskHandler` -/
  taskHandler : Option α → Tag → Prog O Unit
  /-- `cancelAllObjectOperations` -/
  cancelAll : Prog O Unit
  /-- `destructorCb` and `destructor` -/
  destructor : Prog O Unit
  /-- `syncImpl`; answers whether it left a pending operation to be run. -/
  syncImpl : Prog O Bool
  /-- What `newAsyncOp` does to the object's state. -/
  create : O → α → O → Prop
  /-- What `releaseAsyncOp` does, of a node that was never pushed. -/
  discard : α → O → O
  /-- `object->DeletePending` -/
  deletePending : O → Bool
  /-- `queue->head || object->initializationOp`, for the read queue or the write queue. -/
  occupied : Bool → O → Bool

section Functions

variable {α τ O : Type} [DecidableEq α] [DecidableEq τ] (B : Backend α O) (t : τ)

/-- The operation pointer a word decodes to; the stub stands for no operation. -/
def Node.op? : Node α → Option α
  | .op a => some a
  | _ => none

/-- Read a field of the object's own state. -/
def readObject {β : Type} (f : O → β) : Prog (State α τ O) β :=
  instr t (fun m => (f m.obj, m)) fun _ g => g

/-- `newAsyncOp`: any node nobody uses. -/
def newAsyncOp : Prog (State α τ O) α :=
  .pick fun s a s' =>
    s.ghost.halted = false ∧ s.ghost.place a = .free ∧ ∃ o, B.create s.mem.obj a o ∧
      s' = ⟨{ s.mem with obj := o }, { s.ghost with place := update s.ghost.place a (.held t) }⟩

/-- `releaseAsyncOp` of a node that was never pushed. -/
def releaseAsyncOp (a : α) : Prog (State α τ O) Unit :=
  instr t (fun m => ((), { m with obj := B.discard a m.obj }))
    fun _ g => { g with place := update g.place a .free }

/-- `if (__uint_atomic_load(&object->DeletePending)) cancelAllObjectOperations(object)` -/
def sweepDying : Prog (State α τ O) Unit := do
  let dying ← readObject t B.deletePending
  if dying then onObject t B.cancelAll else return ()

/-- The sweep where the object is given up. -/
def releaseSweep : Prog (State α τ O) Unit := do
  note t (Ghost.setBusy true)
  sweepDying B t
  note t (Ghost.setBusy false)

/-- The rest of `combinerDispatch`, where there is no DELETE. -/
def combinerHandle (op : Option α) (tag : Tag) : Prog (State α τ O) Unit := do
  (if tag.has tagProgressMask then sweepDying B t else return ())
  onObject t (B.taskHandler op tag)
  note t (Ghost.setBusy false)

/-- Record that `combinerDispatch` was called. -/
def enterDispatch (op : Option α) (tag : Tag) : Prog (State α τ O) Unit :=
  instr t (fun m => ((), { m with obj := B.enter op m.obj })) fun _ => Ghost.beginDispatch op tag

/-- `combinerDispatch`, with `combinerTaskHandlerCommon` inside. Answers whether the object was
destroyed. -/
def combinerDispatch (op : Option α) (tag : Tag) : Prog (State α τ O) Bool := do
  enterDispatch B t op tag
  if tag.has tagDelete then
    onObject t B.cancelAll
    let generation ← instr t (fun m => (m.high, m)) fun _ g => g
    instr t (fun m => ((), { m with high := generation + 1 })) fun _ g => g
    onObject t B.destructor
    return true
  else
    combinerHandle B t op tag
    return false

/-- Decode a word and dispatch it, if it is one. Answers whether the object was destroyed. -/
def combinerRun (p : TaggedPtr α) : Prog (State α τ O) Bool :=
  if p ≠ .null then combinerDispatch B t p.node.op? p.tag else return false

/-- The inner loop of `combiner` that waits for the head to differ from `stackTop`, or gives the
object up. Answers `none` after the releasing CAS. -/
def combinerRelease (stackTop : TaggedPtr α) : Prog (State α τ O) (Option (TaggedPtr α)) :=
  .loop (fun _ : Unit => do
    let currentHead ← loadLow t
    if currentHead = stackTop then
      releaseSweep B t
      let released ← casLow t stackTop .null id
      if released then return .inr none else return .inl ()
    else return .inr (some currentHead)) ()

/-- Capture the chain; answers the word it started at. -/
def combinerCapture (stackTop : TaggedPtr α) : TaggedPtr α → Prog (State α τ O) (TaggedPtr α) :=
  .loop fun currentHead => do
    let captured ← casLow t currentHead stackTop Ghost.capture
    if captured then return .inr currentHead
    else
      let reloaded ← loadLow t
      return .inl reloaded

/-- Reverse the captured chain in place. Answers the reversed list and the tail, a word without a
node. -/
def combinerReverse (stackTop : TaggedPtr α) :
    TaggedPtr α × TaggedPtr α → Prog (State α τ O) (TaggedPtr α × TaggedPtr α) :=
  .loop fun (currentHead, reversed) =>
    if currentHead = .null ∨ currentHead = stackTop then return .inr (reversed, .null)
    else match currentHead.node with
      | .op current => do
        let next ← swapNext t current reversed
        return .inl (next, currentHead)
      | _ => return .inr (reversed, currentHead)

/-- Dispatch the reversed list. Answers whether the object was destroyed. -/
def combinerDrain : TaggedPtr α → Prog (State α τ O) Bool :=
  .loop fun reversed =>
    if reversed = .null then return .inr false
    else match reversed.node with
      | .op current => do
        let next ← loadNext t current
        let destroyed ← combinerDispatch B t (some current) reversed.tag
        if destroyed then return .inr true else return .inl next
      -- The list holds nodes only.
      | _ => return .inr true

/-- `combiner` -/
def combiner (stackTop forRun : TaggedPtr α) : Prog (State α τ O) Unit := do
  let destroyed ← combinerRun B t forRun
  if destroyed then return ()
  .loop (fun _ : Unit => do
    match ← combinerRelease B t stackTop with
    | none => return .inr ()
    | some seen =>
      let currentHead ← combinerCapture t stackTop seen
      let (reversed, tail) ← combinerReverse t stackTop (currentHead, .null)
      let destroyed ← combinerRun B t tail
      if destroyed then return .inr ()
      let destroyed ← combinerDrain B t reversed
      if destroyed then return .inr () else return .inl ()) ()

/-- `combinerPushValidated` -/
def combinerPushValidated (generation : ℕ) (tag : Tag) : Prog (State α τ O) Bool := do
  let low ← loadLow t
  let won ← .loop (fun expected : TaggedPtr α × ℕ =>
    if expected.2 ≠ generation then return .inr none
    else do
      let (ok, seen) ← casTag t expected (expected.1.or tag, expected.2) (Ghost.signal tag)
      if ok then return .inr (some expected.1) else return .inl seen) (low, generation)
  match won with
  | none => return false
  | some low =>
    if low = .null then
      combiner B t .stub .null
    return true

/-- `if (!allocated) allocated = newAsyncOp(...)` -/
def allocateOnce (allocated : Option α) : Prog (State α τ O) α :=
  match allocated with
  | some a => return a
  | none => newAsyncOp B t

/-- `combinerAcquire`. Answers `none` when the caller is to run synchronously. -/
def combinerAcquire (write : Bool) : Prog (State α τ O) (Option α) := do
  let (head, allocated) ← .loop (fun allocated : Option α => do
    let head ← loadLow t
    if head ≠ .null then
      let a ← allocateOnce B t allocated
      storeNext t a head
      let ok ← casLow t head (.make a) (Ghost.push a)
      if ok then return .inr (head, some a) else return .inl (some a)
    else
      let ok ← casLow t head .stub Ghost.claim
      if ok then return .inr (head, allocated) else return .inl allocated) none
  if head ≠ .null then return allocated
  let occupied ← readObject t (B.occupied write)
  let queued ← (if occupied then return true else readObject t B.deletePending)
  if queued then
    let a ← allocateOnce B t allocated
    note t (Ghost.passForRun (some a))
    combiner B t .stub (.make a)
    return some a
  else
    match allocated with
    | some a => do
      releaseAsyncOp B t a
      return none
    | none => return none

/-- `runAioOperation`, as far as the head word goes: the caller of `combinerAcquire`, whose
synchronous path runs `syncImpl` and passes what that left pending to `combiner`. -/
def runAioOperation (write : Bool) : Prog (State α τ O) Unit := do
  match ← combinerAcquire B t write with
  | some _ => return ()
  | none =>
    let pending ← onObject t B.syncImpl
    if pending then
      let a ← newAsyncOp B t
      note t (Ghost.passForRun (some a))
      combiner B t .stub (.make a)
    else
      note t (Ghost.passForRun none)
      combiner B t .stub .null

/-- `combinerPushOperation` -/
def combinerPushOperation (a : α) : Prog (State α τ O) Unit := do
  let head ← .loop (fun _ : Unit => do
    let head ← loadLow t
    if head ≠ .null then
      storeNext t a head
      let ok ← casLow t head (.make a) (Ghost.push a)
      if ok then return .inr head else return .inl ()
    else
      let ok ← casLow t head .stub (Ghost.pushFirst a)
      if ok then return .inr head else return .inl ()) ()
  if head = .null then
    combiner B t .stub (.make a)

/-- `combinerPushCounter` -/
def combinerPushCounter (tag : Tag) : Prog (State α τ O) Unit := do
  let old ← fetchOrLow t tag
  if old = .null then
    combiner B t .stub .null

/-- `combinerPushDelete` -/
def combinerPushDelete : Prog (State α τ O) Unit := do
  let old ← fetchAddDelete t
  if old = .null then
    combiner B t .stub .null

end Functions

end Combiner

end Asyncio
