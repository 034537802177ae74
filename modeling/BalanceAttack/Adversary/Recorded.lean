import BalanceAttack.Adversary.Basic

/-!
# BalanceAttack.Adversary.Recorded

A transcript of all that a run asks of its adversary, one line to each act.
The transcript keeps the first lines as text and all of them as a digest, the
64-bit FNV-1a hash of the lines with a line feed after each.

Acts whose result is not part of the line are noted before they are tried, and
so also when they fault.
-/

namespace BalanceAttack

/-- What has been noted so far. -/
structure Transcript where
  count : Nat := 0
  digest : UInt64 := 0xcbf29ce484222325
  head : Array String := #[]

namespace Transcript

/-- Adds a byte to a digest. -/
def mixByte (digest : UInt64) (byte : UInt8) : UInt64 :=
  (digest ^^^ byte.toUInt64) * 0x100000001b3

/-- Notes a line, and keeps it as long as fewer than `keep` lines are kept. -/
def note (keep : Nat) (t : Transcript) (line : String) : Transcript where
  count := t.count + 1
  digest := mixByte (line.toUTF8.foldl mixByte t.digest) 10
  head := if t.head.size < keep then t.head.push line else t.head

end Transcript

/-- The state of an adversary beside the transcript of what was asked of it. -/
structure Recorded (α : Type) where
  state : α
  transcript : Transcript := {}

namespace Recorded

variable {α : Type}

/-- A side and a block number, as one word. -/
def word (sent : Side × BlockId) : String := sent.1.letter ++ toString sent.2.number

/-- The line for a decision. -/
def releaseLine (time : Int) (r : Release) : String :=
  "release " ++ toString time ++ String.join (r.sent.map fun s => " " ++ word s) ++ " short " ++
    r.shortfall.side.letter ++ " " ++ toString r.shortfall.blocks

/-- The result of an act beside a transcript. -/
def beside (t : Transcript) (result : Except (Crash α) α) :
    Except (Crash (Recorded α)) (Recorded α) :=
  match result with
  | .ok state => .ok ⟨state, t⟩
  | .error crash => .error ⟨crash.fault, ⟨crash.state, t⟩⟩

/-- An adversary that does what another does and keeps a transcript with so
many lines as text. -/
def adversary (keep : Nat) (a : Adversary α) : Adversary (Recorded α) where
  name := a.name
  setUp nodes distances r :=
    let t := r.transcript.note keep ("setup " ++ toString nodes)
    beside t (a.setUp nodes distances r.state)
  partition r := a.partition r.state
  start r :=
    let t := r.transcript.note keep "start"
    beside t (a.start r.state)
  withhold side block time r :=
    let t := r.transcript.note keep
      ("mined " ++ side.letter ++ " " ++ toString block.number ++ " " ++ toString time)
    beside t (a.withhold side block time r.state)
  chooseSide r :=
    match a.chooseSide r.state with
    | .ok (side, state) => .ok (side, ⟨state, r.transcript.note keep ("side " ++ side.letter)⟩)
    | .error crash => .error ⟨crash.fault, ⟨crash.state, r.transcript⟩⟩
  observe side block peer r :=
    let t := r.transcript.note keep
      ("recv " ++ side.letter ++ " " ++ toString block.number ++ " " ++ toString peer)
    beside t (a.observe side block peer r.state)
  release time r :=
    match a.release time r.state with
    | .ok (release, state) =>
      .ok (release, ⟨state, r.transcript.note keep (releaseLine time release)⟩)
    | .error crash => .error ⟨crash.fault, ⟨crash.state, r.transcript⟩⟩
  borrowed r := a.borrowed r.state
  withheld r := a.withheld r.state

end Recorded

end BalanceAttack
