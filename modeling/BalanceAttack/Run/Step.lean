import BalanceAttack.Run.State

/-!
# BalanceAttack.Run.Step

How a run goes on from one event to the next.  `step` takes the earliest event
off the agenda and carries it out; `loop` repeats that until the fork is
resolved or the time is up.
-/

namespace BalanceAttack

open BalanceAttack.Random

/-- What an event leads to: the run goes on, with an entry for its history, or it is over. -/
inductive Run.Progress (α σ : Type) where
  | running (e : Run.Entry) (s : Run.State α σ)
  | finished (v : Verdict) (s : Run.State α σ)

namespace Run

variable {α σ : Type}

/-- The time of the first check for agreement. -/
def firstCheck : Int := 10

/-- The time between two checks for agreement. -/
def checkInterval : Int := 50

/-! ## the start -/

/-- A node to be kept on the right side starts from the genesis block, and
sends it to all others. -/
def seed (net : Network) (w : World σ) (node : Nat) : Except Fault (World σ) := do
  let _ ← Fault.read w.nodes node
  let events ← World.arrivals net 0 node .right .genesis
  return { w with nodes := w.nodes.modify node (·.record .genesis .right) }.schedule events

/-- The world once the nodes to be kept on the right side have the genesis block. -/
def seedAll (run : Run α) (p : Partition) (supply : Supply σ) : Except Fault (World σ) :=
  p.right.foldlM (seed run.network) (World.fresh run.network.size supply)

/-- The state before the first event, for an adversary that has been set up. -/
def start (run : Run α) (a : α) (supply : Supply σ) : Except (Crash α) (State α σ) := do
  let w ← Fault.orCrash (run.seedAll (run.adversary.partition a) supply) a
  let a ← run.adversary.start a
  return ⟨a, w.schedule [(0, .mine), (firstCheck, .check)]⟩

/-! ## the adversary's part -/

/-- The adversary mines a block and keeps it back. -/
def mineEvil (run : Run α) (block : BlockId) (a : α) (w : World σ) :
    Except (Crash α) (Entry × State α σ) := do
  let (side, a) ← run.adversary.chooseSide a
  let a ← run.adversary.withhold side block w.clock a
  return ({ time := w.clock, event := .mine, kept := [(side, block)] },
    ⟨a, { w with adversaryMined := w.adversaryMined + 1 }⟩)

/-- The synthetic blocks for a shortfall, when so many blocks have been lacking
in all.  Their numbers go down to the negative of that total. -/
def synthetic (short total : Nat) : List BlockId :=
  (List.range (Whole.signed short).toNat).reverse.map fun (k : Nat) =>
    ⟨(k : Int) - Whole.signed total⟩

/-- The adversary lends itself blocks of a side. -/
def lend (run : Run α) (side : Side) (blocks : List BlockId) (time : Int) (a : α) :
    Except (Crash α) α :=
  blocks.foldlM (fun a block => do
    let number ← Fault.orCrash (Time.ofInt block.number) a
    run.adversary.withhold side ⟨number⟩ time a) a

/-- The blocks the adversary lends itself and those it sends at a time.  If it
may borrow and lacked blocks, it decides once more with those it lent itself. -/
def blocksToSend (run : Run α) (time : Int) (a : α) :
    Except (Crash α) ((List (Side × BlockId) × List (Side × BlockId)) × α) := do
  let (r, a) ← run.adversary.release time a
  if run.env.allowBorrowing && 0 < r.shortfall.blocks then
    let lent := synthetic r.shortfall.blocks (run.adversary.borrowed a)
    let a ← run.lend r.shortfall.side lent time a
    let (again, a) ← run.adversary.release time a
    return ((lent.map fun b => (r.shortfall.side, b), r.sent ++ again.sent), a)
  else
    return (([], r.sent), a)

/-- The adversary learns that a node has received a block, decides which blocks
to send, and sends them. -/
def react (run : Run α) (side : Side) (block : BlockId) (peer : Nat) (a : α) (w : World σ) :
    Except (Crash α) (Entry × State α σ) := do
  let a ← run.adversary.observe side block peer a
  let ((kept, sent), a) ← run.blocksToSend w.clock a
  let w ← Fault.orCrash (w.send run.env.oneWayLatency (run.adversary.partition a) sent) a
  return ({ time := w.clock, event := .observe side block peer, kept, sent }, ⟨a, w⟩)

/-! ## events -/

/-- A block is found: the time of the next one is drawn, and then who mined this one. -/
def mine [WordSource σ] (run : Run α) (a : α) (w : World σ) :
    Except (Crash α) (Entry × State α σ) := do
  let (wait, w) ← Fault.orCrash (w.draw (Draw.interval run.env.blockPeriod)) a
  let time ← Fault.orCrash (Time.add w.clock wait) a
  let w := { w with agenda := w.agenda.push time .mine, mined := w.mined + 1 }
  let block : BlockId := ⟨w.mined⟩
  let (chance, w) ← Fault.orCrash (w.draw Draw.unit) a
  if chance < run.env.evilRate then
    run.mineEvil block a w
  else
    let (e, w) ← Fault.orCrash (w.mineHonest run.network run.env.oneWayLatency block) a
    return (e, ⟨a, w⟩)

/-- Checks for agreement, and again after a while. -/
def check (a : α) (w : World σ) : Except (Crash α) (Progress α σ) := do
  let (settled, w) := w.checkAgreement
  match settled with
  | some side => return .finished ⟨w.clock, some side⟩ ⟨a, w⟩
  | none =>
    let time ← Fault.orCrash (Time.add w.clock checkInterval) a
    return .running { time := w.clock, event := .check } ⟨a, w.schedule [(time, .check)]⟩

/-- Carries out an event at the time on the clock. -/
def handle [WordSource σ] (run : Run α) (event : Event) (a : α) (w : World σ) :
    Except (Crash α) (Progress α σ) :=
  match event with
  | .mine => do
    let (e, s) ← run.mine a w
    return .running e s
  | .deliver peer side block => do
    let w ← Fault.orCrash (w.deliver run.env.oneWayLatency peer side block) a
    return .running { time := w.clock, event } ⟨a, w⟩
  | .observe side block peer => do
    let (e, s) ← run.react side block peer a w
    return .running e s
  | .check => check a w
  | .idle =>
    if w.agenda.isEmpty then return .finished ⟨run.env.termination, none⟩ ⟨a, w⟩
    else return .running { time := w.clock, event } ⟨a, w⟩

/-- Takes the earliest event off the agenda and carries it out, unless the time is up. -/
def step [WordSource σ] (run : Run α) (s : State α σ) : Except (Crash α) (Progress α σ) :=
  let ⟨a, w⟩ := s
  match w.agenda.next with
  | none => .ok (.finished ⟨run.env.termination, none⟩ ⟨a, w⟩)
  | some (first, agenda) =>
    let w := { w with clock := first.time, agenda }
    if run.env.termination ≤ first.time then
      .ok (.finished ⟨run.env.termination, none⟩ ⟨a, w⟩)
    else
      run.handle first.event a w

/-- Goes on for at most so many events; without a verdict the run is not over. -/
def loop [WordSource σ] (run : Run α) :
    Nat → State α σ → Except (Crash α) (Option Verdict × State α σ)
  | 0, s => .ok (none, s)
  | n + 1, s =>
    match run.step s with
    | .error crash => .error crash
    | .ok (.running _ s) => run.loop n s
    | .ok (.finished v s) => .ok (some v, s)

end Run

end BalanceAttack
