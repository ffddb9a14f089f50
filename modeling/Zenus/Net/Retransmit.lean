import Zenus.Net.Demux

/-! # Lost data

`poll_retransmit` sends the oldest data again when its ticks are over, as far as the
windows allow beyond what is in flight.  With a full window it sends nothing and keeps
the retry count.
-/

namespace Zenus.Net

open Lib.Run

namespace Tcb

/-- What the windows leave beside the data in flight. -/
def budget (tcb : Tcb) : Nat :=
  let inFlight := seqSub tcb.sendNxt tcb.sendUna
  min MSS (min (tcb.cwnd - inFlight) (tcb.peerWindow - inFlight))

/-- An open connection with unacknowledged data. -/
abbrev Waiting (tcb : Tcb) : Prop :=
  tcb.state = .established ∧ tcb.listening = false ∧ seqBefore tcb.sendUna tcb.sendNxt = true ∧
    tcb.peerWindow < 2 ^ 16

variable {tcb : Tcb}

theorem Waiting.poll (waiting : tcb.Waiting) (ticks : Nat) :
    tcb.poll ticks = if tcb.retryCount = 0 then some (some tcb, [])
      else if 0 < tcb.retryTicks then some (some { tcb with retryTicks := tcb.retryTicks - 1 }, [])
      else tcb.pollData.map (Prod.map some id) := by
  simp [Tcb.poll, waiting.1, waiting.2.1, waiting.2.2.1]

end Tcb

section Sample

/-- A connection to the peer, and data flushed to it. -/
def flushed (data : List UInt8) : Option Tcb := do
  let conns ← exec TcpOp.step [.connect quietNet 80 peer 1000, .segment quietNet peer host
    (buildSegment peer host 1000 80 7 2 0x50 (TCP_FLAG_SYN ||| TCP_FLAG_ACK) 4096 []).bytes] fun _ => none
  let sent ← (conns.sendData 0 data).2.flushTx quietNet 0
  sent.2.1.get 0

end Sample

end Zenus.Net
