import Mathlib.Data.List.FinRange
import Zenus.Lib.Best
import Zenus.Lib.Word

/-! # TCP

The connection blocks of the TCP layer: opening them, what a received segment does to
them, sending, closing and the timer.  What lies outside (the clock, the random numbers
and whether IPv4 takes a packet) is given to each call as its environment.
-/

namespace Zenus.Net

open Lib.Word Function

structure Ip where
  a : UInt8
  b : UInt8
  c : UInt8
  d : UInt8
  deriving DecidableEq, Repr

def Ip.zero : Ip := ⟨0, 0, 0, 0⟩

def TCP_FLAG_FIN : Nat := 0x01
def TCP_FLAG_SYN : Nat := 0x02
def TCP_FLAG_RST : Nat := 0x04
def TCP_FLAG_PSH : Nat := 0x08
def TCP_FLAG_ACK : Nat := 0x10

def MAX_CONNS : Nat := 256
def MAX_RETRIES : Nat := 5
def RETRY_INTERVAL : Nat := 10
def MSS : Nat := 1460
def INIT_CWND : Nat := 1460
def INIT_SSTHRESH : Nat := 65535
def KEEPALIVE_IDLE : Nat := 7200
def KEEPALIVE_PROBE_INTERVAL : Nat := 75
def KEEPALIVE_PROBES : Nat := 9
def TICKS_PER_SEC : Nat := 100
def RX_BUF_LEN : Nat := 4096
def TX_BUF_LEN : Nat := 4096

inductive ConnState where
  | closed
  | listen
  | synSent
  | synReceived
  | established
  | finWait1
  | finWait2
  | closeWait
  | closing
  | lastAck
  | timeWait
  deriving DecidableEq, Repr

/-! ## Numbers -/

def rxFree (rxDataLen : Nat) : Nat := RX_BUF_LEN - rxDataLen

def advertisedWindow (rxDataLen : Nat) : Nat := min (rxFree rxDataLen) 65535

def seqAdvance (seq len extra : Nat) : Nat := (seq + len + extra) % 2 ^ 32

/-- `a.wrapping_sub(b)` -/
def seqSub (a b : Nat) : Nat := (a + 2 ^ 32 - b) % 2 ^ 32

def seqBefore (a b : Nat) : Bool := decide (2 ^ 31 ≤ seqSub a b)

def seqBeforeEq (a b : Nat) : Bool := a == b || seqBefore a b

inductive Keepalive where
  | wait
  | probe
  | giveUp
  deriving DecidableEq, Repr

def keepaliveAction (ticks nextDue probesSent : Nat) : Keepalive :=
  if ticks < nextDue then .wait else if KEEPALIVE_PROBES ≤ probesSent then .giveUp else .probe

/-- `saturating_add` of a `u64`. -/
def addSaturating (a b : Nat) : Nat := min (a + b) (WORD - 1)

def keepaliveIdleDeadline (last : Nat) : Nat := addSaturating last (KEEPALIVE_IDLE * TICKS_PER_SEC)

def keepaliveProbeDeadline (last : Nat) : Nat := addSaturating last (KEEPALIVE_PROBE_INTERVAL * TICKS_PER_SEC)

/-! ## Segments -/

def be16 (a b : UInt8) : Nat := a.toNat * 256 + b.toNat

def be32 (a b c d : UInt8) : Nat := be16 a b * 65536 + be16 c d

def be16Bytes (n : Nat) : List UInt8 := [UInt8.ofNat (n / 256), UInt8.ofNat n]

def be32Bytes (n : Nat) : List UInt8 := be16Bytes (n / 65536) ++ be16Bytes (n % 65536)

/-- The 16-bit words of a segment added up; a last odd byte is a high byte. -/
def sumWords : List UInt8 → Nat
  | a :: b :: rest => be16 a b + sumWords rest
  | [a] => a.toNat * 256
  | [] => 0

/-- Carries folded into the low 16 bits; a `u32` needs two rounds. -/
def foldCarries (sum : Nat) : Nat :=
  let once := sum % 65536 + sum / 65536
  once % 65536 + once / 65536

def checksum (srcIp dstIp : Ip) (segment : List UInt8) : Nat :=
  65535 - foldCarries (be16 srcIp.a srcIp.b + be16 srcIp.c srcIp.d + be16 dstIp.a dstIp.b + be16 dstIp.c dstIp.d +
    6 + segment.length % 65536 + sumWords segment)

/-- A segment as it is read. -/
structure Segment where
  srcPort : Nat
  dstPort : Nat
  seq : Nat
  ack : Nat
  flags : Nat
  window : Nat
  payload : List UInt8
  deriving DecidableEq, Repr

def Segment.has (seg : Segment) (flag : Nat) : Bool := seg.flags &&& flag != 0

/-- The header fields of a segment; `none` is a segment that is dropped. -/
def parseSegment (srcIp dstIp : Ip) (segment : List UInt8) : Option Segment :=
  if checksum srcIp dstIp segment ≠ 0 then none
  else
    match segment with
    | p₀ :: p₁ :: q₀ :: q₁ :: s₀ :: s₁ :: s₂ :: s₃ :: a₀ :: a₁ :: a₂ :: a₃ :: off :: flags :: w₀ :: w₁ ::
        _ :: _ :: _ :: _ :: _ =>
        let hdrLen := off.toNat / 16 * 4
        if hdrLen < 20 ∨ segment.length < hdrLen then none
        else
          some { srcPort := be16 p₀ p₁, dstPort := be16 q₀ q₁, seq := be32 s₀ s₁ s₂ s₃, ack := be32 a₀ a₁ a₂ a₃
                 flags := flags.toNat, window := be16 w₀ w₁, payload := segment.drop hdrLen }
    | _ => none

/-- A packet given to IPv4: its destination and the TCP segment in it. -/
structure Packet where
  dst : Ip
  bytes : List UInt8
  deriving DecidableEq, Repr

/-- A segment with the given header length in its first byte after the numbers, before
    its checksum is set. -/
def header (srcPort dstPort seq ack offset flags window : Nat) (sum : Nat) : List UInt8 :=
  be16Bytes srcPort ++ be16Bytes dstPort ++ be32Bytes seq ++ be32Bytes ack ++
    [UInt8.ofNat offset, UInt8.ofNat flags] ++ be16Bytes window ++ be16Bytes sum ++ [0, 0]

/-- `build_segment` with its checksum, followed by options or a payload. -/
def buildSegment (srcIp dstIp : Ip) (srcPort dstPort seq ack offset flags window : Nat) (rest : List UInt8) :
    Packet :=
  let sum := checksum srcIp dstIp (header srcPort dstPort seq ack offset flags window 0 ++ rest)
  ⟨dstIp, header srcPort dstPort seq ack offset flags window sum ++ rest⟩

/-- The options of `build_syn_segment`: segment size, window scale, SACK. -/
def synOptions : List UInt8 := [2, 4, 0x05, 0xB4, 3, 3, 7, 4, 2, 1, 1, 1]

/-! ## Selective acknowledgement -/

def mergeSack : List (Nat × Nat) → Nat → Nat → List (Nat × Nat) × Nat × Nat
  | [], left, right => ([], left, right)
  | (l, r) :: rest, left, right =>
    if l = 0 ∧ r = 0 ∨ ¬ (left ≤ r ∧ l ≤ right) then
      let merged := mergeSack rest left right
      ((l, r) :: merged.1, merged.2)
    else
      let merged := mergeSack rest (min left l) (max right r)
      ((0, 0) :: merged.1, merged.2)

def placeSack (new : Nat × Nat) : List (Nat × Nat) → Option (List (Nat × Nat))
  | [] => none
  | block :: rest => if block = (0, 0) then some (new :: rest) else (placeSack new rest).map (block :: ·)

def addSackBlock (blocks : List (Nat × Nat)) (left right : Nat) : List (Nat × Nat) :=
  let merged := mergeSack blocks left right
  (placeSack merged.2 merged.1).getD (merged.1.tail ++ [merged.2])

/-- The option of `send_sack_ack`, padded to whole words. -/
def sackOption (blocks : List (Nat × Nat)) : List UInt8 :=
  let used := blocks.filter (· ≠ (0, 0))
  if used.isEmpty then []
  else
    let option := [5, UInt8.ofNat (2 + used.length * 8)] ++ used.flatMap fun b => be32Bytes b.1 ++ be32Bytes b.2
    option ++ List.replicate ((4 - option.length % 4) % 4) 1

/-! ## Connection blocks -/

/-- A connection block; the buffers hold what the source counts with `rx_data_len` and
    `tx_data_len`. -/
structure Tcb where
  state : ConnState
  localIp : Ip
  localPort : Nat
  remoteIp : Ip
  remotePort : Nat
  sendUna : Nat
  sendNxt : Nat
  recvNxt : Nat
  peerWindow : Nat := 0
  listening : Bool := false
  rxData : List UInt8 := []
  txData : List UInt8 := []
  retryCount : Nat := 0
  retryTicks : Nat := 0
  timeWaitTicks : Nat := 0
  cwnd : Nat := INIT_CWND
  ssthresh : Nat := INIT_SSTHRESH
  dupackCount : Nat := 0
  lastAckSeq : Nat := 0
  keepaliveProbes : Nat := 0
  keepaliveDue : Nat := 0
  sackBlocks : List (Nat × Nat) := [(0, 0), (0, 0), (0, 0), (0, 0)]
  deriving DecidableEq, Repr

abbrev Conns := Fin MAX_CONNS → Option Tcb

/-- What a call reads from outside the TCP layer. -/
structure Env where
  /-- `rand_isn` -/
  isn : Nat
  ticks : Nat
  /-- The address of the interface, if there is one. -/
  ifaceIp : Option Ip
  /-- Whether IPv4 takes a packet. -/
  takes : Packet → Bool

namespace Tcb

def win (tcb : Tcb) : Nat := advertisedWindow tcb.rxData.length

/-- The answer to a segment, with the ports and addresses turned round. -/
def reply (srcIp dstIp : Ip) (seg : Segment) (seq ack flags window : Nat) : Packet :=
  buildSegment dstIp srcIp seg.dstPort seg.srcPort seq ack 0x50 flags window []

/-- The acknowledgement of what was received so far. -/
def ackReply (tcb : Tcb) (srcIp dstIp : Ip) (seg : Segment) : Packet :=
  reply srcIp dstIp seg tcb.sendNxt tcb.recvNxt TCP_FLAG_ACK tcb.win

def takeIn (tcb : Tcb) (seg : Segment) : Tcb :=
  let copied := seg.payload.take (rxFree tcb.rxData.length)
  { tcb with rxData := tcb.rxData ++ copied, recvNxt := seqAdvance seg.seq copied.length 0 }

/-- Three acknowledgements of one number ask for a retransmission. -/
def countDupack (tcb : Tcb) (seg : Segment) : Tcb :=
  let tcb :=
    if seg.ack = tcb.lastAckSeq ∧ seqBefore tcb.sendUna tcb.sendNxt then
      let count := min (tcb.dupackCount + 1) 255
      if count = 3 then { tcb with dupackCount := count, retryCount := MAX_RETRIES, retryTicks := 0 }
      else { tcb with dupackCount := count }
    else if seqBefore tcb.lastAckSeq seg.ack then { tcb with dupackCount := 0 }
    else tcb
  if seqBeforeEq seg.ack tcb.lastAckSeq ∨ tcb.lastAckSeq = 0 then { tcb with lastAckSeq := seg.ack } else tcb

/-- The bytes that an acknowledgement newly covers, and the block without them. -/
def coverSent (tcb : Tcb) (seg : Segment) : Nat × Tcb :=
  if seqBefore tcb.sendUna seg.ack ∧ seqBeforeEq seg.ack tcb.sendNxt then
    let acked := seqSub seg.ack tcb.sendUna
    let tcb := { tcb with
      sendUna := seg.ack
      txData := if acked ≤ tcb.txData.length then tcb.txData.drop acked else tcb.txData }
    (acked, if seqBefore tcb.sendUna tcb.sendNxt then tcb else { tcb with retryCount := 0, retryTicks := 0 })
  else (0, tcb)

/-- What every acknowledgement of a connection does: the peer is alive, the congestion
    window grows, and the peer's window is noted. -/
def settle (tcb : Tcb) (acked ticks window : Nat) : Tcb :=
  { tcb with
    keepaliveProbes := 0
    keepaliveDue := keepaliveIdleDeadline ticks
    cwnd :=
      if tcb.cwnd < tcb.ssthresh then min (tcb.cwnd + MSS) 65535
      else if 0 < acked then min (tcb.cwnd + 1) 65535
      else tcb.cwnd
    peerWindow := window }

/-- The acknowledgement of an established connection. -/
def acknowledged (tcb : Tcb) (ticks : Nat) (seg : Segment) : Tcb :=
  let covered := (tcb.countDupack seg).coverSent seg
  covered.2.settle covered.1 ticks seg.window

/-- The payload of an established connection: in order it is taken in, out of order its
    range is remembered. -/
def payloadReceived (tcb : Tcb) (srcIp dstIp : Ip) (seg : Segment) : Tcb × Packet :=
  if seg.seq = tcb.recvNxt then
    let tcb := tcb.takeIn seg
    let tcb := { tcb with
      sackBlocks := tcb.sackBlocks.map fun b => if seqBeforeEq b.2 tcb.recvNxt then (0, 0) else b }
    (tcb, tcb.ackReply srcIp dstIp seg)
  else
    let tcb := { tcb with
      sackBlocks := addSackBlock tcb.sackBlocks seg.seq ((seg.seq + seg.payload.length) % 2 ^ 32) }
    let option := sackOption tcb.sackBlocks
    (tcb, buildSegment dstIp srcIp seg.dstPort seg.srcPort tcb.sendNxt tcb.recvNxt ((20 + option.length) / 4 * 16)
      TCP_FLAG_ACK tcb.win option)

def receiveEstablished (tcb : Tcb) (ticks : Nat) (srcIp dstIp : Ip) (seg : Segment) : Tcb × List Packet :=
  let tcb := if seg.has TCP_FLAG_ACK then tcb.acknowledged ticks seg else tcb
  let taken :=
    if !seg.payload.isEmpty && seg.has TCP_FLAG_ACK then
      let taken := tcb.payloadReceived srcIp dstIp seg
      (taken.1, [taken.2])
    else (tcb, [])
  if seg.has TCP_FLAG_FIN then
    let tcb := { taken.1 with
      recvNxt := (taken.1.recvNxt + 1) % 2 ^ 32
      state := if taken.1.state = .established then .closeWait else taken.1.state }
    (tcb, taken.2 ++ [tcb.ackReply srcIp dstIp seg])
  else taken

def receiveSynReceived (tcb : Tcb) (srcIp dstIp : Ip) (seg : Segment) : Tcb × List Packet :=
  if seg.has TCP_FLAG_ACK then
    if seg.seq ≠ tcb.recvNxt then (tcb, [tcb.ackReply srcIp dstIp seg])
    else
      let tcb := { tcb with
        state := .established, sendUna := seg.ack, peerWindow := seg.window, retryCount := 0, retryTicks := 0 }
      if seg.payload.isEmpty then (tcb, [])
      else
        let tcb := tcb.takeIn seg
        (tcb, [tcb.ackReply srcIp dstIp seg])
  else if seg.has TCP_FLAG_SYN then
    (tcb, [reply srcIp dstIp seg tcb.sendUna tcb.recvNxt (TCP_FLAG_SYN ||| TCP_FLAG_ACK) tcb.win])
  else (tcb, [])

def receiveSynSent (tcb : Tcb) (srcIp dstIp : Ip) (seg : Segment) : Tcb × List Packet :=
  if seg.has TCP_FLAG_SYN && seg.has TCP_FLAG_ACK then
    let tcb := { tcb with recvNxt := seqAdvance seg.seq 0 1, sendUna := seg.ack, peerWindow := seg.window }
    ({ tcb with state := .established, retryCount := 0, retryTicks := 0 }, [tcb.ackReply srcIp dstIp seg])
  else if seg.has TCP_FLAG_SYN then
    (tcb, [reply srcIp dstIp seg tcb.sendNxt (seqAdvance seg.seq 0 1) (TCP_FLAG_SYN ||| TCP_FLAG_ACK) tcb.win])
  else (tcb, [])

/-- The peer's FIN in one of the two waiting states. -/
def finReceived (tcb : Tcb) (srcIp dstIp : Ip) (seg : Segment) : Tcb × List Packet :=
  let tcb := { tcb with recvNxt := seqAdvance seg.seq seg.payload.length 1 }
  (tcb, [tcb.ackReply srcIp dstIp seg])

/-- A segment for a block that does not listen; resets have been dealt with before. -/
def receive (tcb : Tcb) (ticks : Nat) (srcIp dstIp : Ip) (seg : Segment) : Tcb × List Packet :=
  match tcb.state with
  | .synSent => tcb.receiveSynSent srcIp dstIp seg
  | .synReceived => tcb.receiveSynReceived srcIp dstIp seg
  | .established | .closeWait => tcb.receiveEstablished ticks srcIp dstIp seg
  | .finWait1 =>
    let tcb := if seg.has TCP_FLAG_ACK && decide (tcb.sendNxt ≤ seg.ack) then { tcb with state := .finWait2 } else tcb
    if seg.has TCP_FLAG_FIN then
      let answered := tcb.finReceived srcIp dstIp seg
      ({ answered.1 with state := .closing }, answered.2)
    else (tcb, [])
  | .finWait2 =>
    if seg.has TCP_FLAG_FIN then
      let answered := tcb.finReceived srcIp dstIp seg
      ({ answered.1 with state := .timeWait, timeWaitTicks := 20 }, answered.2)
    else (tcb, [])
  | .timeWait => (tcb, if seg.has TCP_FLAG_FIN then [tcb.ackReply srcIp dstIp seg] else [])
  | .closing =>
    (if seg.has TCP_FLAG_ACK && decide (tcb.sendNxt ≤ seg.ack) then
      { tcb with state := .timeWait, timeWaitTicks := 20 } else tcb, [])
  | .lastAck =>
    (if seg.has TCP_FLAG_ACK && decide (tcb.sendNxt ≤ seg.ack) then { tcb with state := .closed } else tcb, [])
  | .closed | .listen => (tcb, [])

def listener (port : Nat) : Tcb :=
  { state := .listen, localIp := .zero, localPort := port, remoteIp := .zero, remotePort := 0
    sendUna := 0, sendNxt := 0, recvNxt := 0, listening := true }

/-- The block of a connection whose SYN has been sent. -/
def opening (state : ConnState) (localIp : Ip) (localPort : Nat) (remoteIp : Ip) (remotePort isn recvNxt : Nat) :
    Tcb :=
  { state, localIp, localPort, remoteIp, remotePort, sendUna := isn, sendNxt := isn + 1, recvNxt
    retryCount := MAX_RETRIES, retryTicks := RETRY_INTERVAL }

def accepts (tcb : Tcb) (srcIp : Ip) (srcPort dstPort : Nat) : Bool :=
  if tcb.listening then tcb.localPort == dstPort
  else tcb.localPort == dstPort && tcb.remotePort == srcPort && tcb.remoteIp == srcIp

end Tcb

namespace Conns

def findSlot (conns : Conns) : Option (Fin MAX_CONNS) :=
  ((List.finRange MAX_CONNS).find? fun i => (conns i).isNone).or
    ((List.finRange MAX_CONNS).find? fun i => (conns i).any fun tcb => tcb.state == .closed)

def connByPort (conns : Conns) (port : Nat) : Option (Fin MAX_CONNS) :=
  (List.finRange MAX_CONNS).find? fun i => (conns i).any fun tcb => tcb.listening && tcb.localPort == port

def listen (conns : Conns) (port : Nat) : Option (Fin MAX_CONNS) × Conns :=
  if (conns.connByPort port).isSome then (none, conns)
  else
    match conns.findSlot with
    | none => (none, conns)
    | some idx =>
      (some idx, update conns idx (some (.listener port)))

/-- `connect`; `none` is the overflow check of `isn + 1`. -/
def connect (conns : Conns) (env : Env) (localPort : Nat) (dstIp : Ip) (dstPort : Nat) :
    Option (Option (Fin MAX_CONNS) × Conns × List Packet) :=
  match conns.findSlot with
  | none => some (none, conns, [])
  | some idx =>
    let localIp := env.ifaceIp.getD .zero
    if localIp = .zero ∨ localIp = ⟨127, 0, 0, 1⟩ then some (none, conns, [])
    else
      let syn := buildSegment localIp dstIp localPort dstPort env.isn 0 0x80 TCP_FLAG_SYN 65535 synOptions
      if env.takes syn then
        if env.isn + 1 < 2 ^ 32 then
          some (some idx, update conns idx
            (some (.opening .synSent localIp localPort dstIp dstPort env.isn 0)), [syn])
        else none
      else some (none, conns, [syn])

/-- The block that a segment goes to: the last in the table that accepts it. -/
def lookup (conns : Conns) (srcIp : Ip) (srcPort dstPort : Nat) : Option (Fin MAX_CONNS) :=
  Lib.Best.last (fun i => (conns i).any fun tcb => tcb.accepts srcIp srcPort dstPort) (List.finRange MAX_CONNS)

/-- The reset that answers a segment for no block. -/
def refusal (srcIp dstIp : Ip) (seg : Segment) : List Packet :=
  if seg.has TCP_FLAG_RST || seg.has TCP_FLAG_SYN then []
  else
    [Tcb.reply srcIp dstIp seg (if seg.has TCP_FLAG_ACK then seg.ack else 0)
      (seqAdvance seg.seq seg.payload.length (if seg.has TCP_FLAG_FIN then 1 else 0)) (TCP_FLAG_RST ||| TCP_FLAG_ACK) 0]

/-- A SYN for a listener: a block for the new connection, if the answer can be sent. -/
def receiveListen (conns : Conns) (env : Env) (srcIp dstIp : Ip) (seg : Segment) :
    Option (Bool × Conns × List Packet) :=
  if seg.has TCP_FLAG_SYN && !seg.has TCP_FLAG_ACK then
    match conns.findSlot with
    | none => some (false, conns, [])
    | some child =>
      let recvNxt := seqAdvance seg.seq 0 1
      let synAck := Tcb.reply srcIp dstIp seg env.isn recvNxt (TCP_FLAG_SYN ||| TCP_FLAG_ACK) 65535
      if env.takes synAck then
        if env.isn + 1 < 2 ^ 32 then
          some (true, update conns child
            (some (.opening .synReceived dstIp seg.dstPort srcIp seg.srcPort env.isn recvNxt)), [synAck])
        else none
      else some (true, conns, [synAck])
  else some (true, conns, [])

/-- `handle_receive` after the header has been read. -/
def receive (conns : Conns) (env : Env) (srcIp dstIp : Ip) (seg : Segment) : Option (Bool × Conns × List Packet) :=
  match conns.lookup srcIp seg.srcPort seg.dstPort with
  | none => some (false, conns, refusal srcIp dstIp seg)
  | some idx =>
    match conns idx with
    | none => some (false, conns, [])
    | some tcb =>
      if seg.has TCP_FLAG_RST then
        some (true, update conns idx (some { tcb with state := .closed }), [])
      else if tcb.state = .listen then conns.receiveListen env srcIp dstIp seg
      else
        let received := tcb.receive env.ticks srcIp dstIp seg
        some (true, update conns idx (some received.1), received.2)

/-- `handle_receive`; `none` is a panic. -/
def handleReceive (conns : Conns) (env : Env) (srcIp dstIp : Ip) (segment : List UInt8) :
    Option (Bool × Conns × List Packet) :=
  match parseSegment srcIp dstIp segment with
  | none => some (false, conns, [])
  | some seg => conns.receive env srcIp dstIp seg

end Conns

/-! ## The timer -/

namespace Tcb

def segment (tcb : Tcb) (seq flags : Nat) (payload : List UInt8) : Packet :=
  buildSegment tcb.localIp tcb.remoteIp tcb.localPort tcb.remotePort seq tcb.recvNxt 0x50 flags tcb.win payload

/-- Nothing is in flight: an idle connection is probed, and given up in the end. -/
def pollIdle (tcb : Tcb) (ticks : Nat) : Tcb × List Packet :=
  let tcb := { tcb with retryCount := 0, retryTicks := 0 }
  if tcb.state = .established then
    match keepaliveAction ticks tcb.keepaliveDue tcb.keepaliveProbes with
    | .wait => (tcb, [])
    | .giveUp => ({ tcb with state := .closed }, [])
    | .probe =>
      let tcb := { tcb with
        keepaliveProbes := tcb.keepaliveProbes + 1, keepaliveDue := keepaliveProbeDeadline ticks }
      (tcb, [tcb.segment tcb.sendNxt TCP_FLAG_ACK []])
  else (tcb, [])

def retried (tcb : Tcb) : Tcb :=
  let tcb := { tcb with retryCount := tcb.retryCount - 1, retryTicks := RETRY_INTERVAL }
  if tcb.retryCount = 0 then { tcb with state := .closed }
  else { tcb with ssthresh := max (tcb.cwnd / 2) MSS, cwnd := MSS, dupackCount := 0 }

/-- What is sent again of the data in flight; `none` is the overflow check of the
    subtraction of signed numbers. -/
def pollData (tcb : Tcb) : Option (Tcb × List Packet) :=
  let inFlight := seqSub tcb.sendNxt tcb.sendUna
  if inFlight = 2 ^ 31 then none
  else
    let limit := min MSS (min (tcb.cwnd - inFlight) (tcb.peerWindow - inFlight))
    if limit = 0 then some ({ tcb with retryTicks := 1 }, [])
    else some (tcb.retried, [tcb.segment tcb.sendUna (TCP_FLAG_ACK ||| TCP_FLAG_PSH) (tcb.txData.take limit)])

/-- One round of `poll_retransmit`: the block afterwards, or none if its slot is freed. -/
def poll (tcb : Tcb) (ticks : Nat) : Option (Option Tcb × List Packet) :=
  let still : Tcb × List Packet → Option Tcb × List Packet := Prod.map some id
  let busy : Option (Option Tcb × List Packet) → Option (Option Tcb × List Packet) := fun resend =>
    if !seqBefore tcb.sendUna tcb.sendNxt then some (still (tcb.pollIdle ticks))
    else if tcb.retryCount = 0 then some (some tcb, [])
    else if 0 < tcb.retryTicks then some (some { tcb with retryTicks := tcb.retryTicks - 1 }, [])
    else resend
  match tcb.state with
  | .closed => some (none, [])
  | state =>
    if tcb.listening then some (some tcb, [])
    else
      match state with
      | .timeWait =>
        if tcb.timeWaitTicks = 0 then some (some { tcb with timeWaitTicks := 20 }, [])
        else if tcb.timeWaitTicks = 1 then some (some { tcb with timeWaitTicks := 0, state := .closed }, [])
        else some (some { tcb with timeWaitTicks := tcb.timeWaitTicks - 1 }, [])
      | .synSent => busy (some (tcb.retried, [tcb.segment tcb.sendUna TCP_FLAG_SYN []]))
      | .synReceived => busy (some (tcb.retried, [tcb.segment tcb.sendUna (TCP_FLAG_SYN ||| TCP_FLAG_ACK) []]))
      | .lastAck | .finWait1 | .closing =>
        busy (some (tcb.retried, [tcb.segment tcb.sendUna (TCP_FLAG_FIN ||| TCP_FLAG_ACK) []]))
      | .established | .closeWait => busy (tcb.pollData.map still)
      | .closed | .listen | .finWait2 => some (some tcb, [])

end Tcb

namespace Conns

/-- `poll_retransmit`; `none` is a panic. -/
def pollRetransmit (conns : Conns) (env : Env) : Option (Conns × List Packet) :=
  (List.finRange MAX_CONNS).foldlM
    (fun acc i =>
      match acc.1 i with
      | none => some acc
      | some tcb => (tcb.poll env.ticks).map fun polled => (update acc.1 i polled.1, acc.2 ++ polled.2))
    (conns, [])

/-! ## Calls on a connection -/

def get (conns : Conns) (conn : Nat) : Option Tcb :=
  if known : conn < MAX_CONNS then conns ⟨conn, known⟩ else none

def set (conns : Conns) (conn : Nat) (tcb : Tcb) : Conns :=
  if known : conn < MAX_CONNS then update conns ⟨conn, known⟩ (some tcb) else conns

def sending (conns : Conns) (conn : Nat) : Option Tcb :=
  (conns.get conn).filter fun tcb => tcb.state = .established ∨ tcb.state = .closeWait

def sendData (conns : Conns) (conn : Nat) (data : List UInt8) : Bool × Conns :=
  match conns.sending conn with
  | none => (false, conns)
  | some tcb =>
    let copied := data.take (TX_BUF_LEN - tcb.txData.length)
    (!copied.isEmpty, conns.set conn { tcb with txData := tcb.txData ++ copied })

/-- `flush_tx`; `none` is the overflow check of the next sequence number. -/
def flushTx (conns : Conns) (env : Env) (conn : Nat) : Option (Bool × Conns × List Packet) :=
  match conns.sending conn with
  | none => some (false, conns, [])
  | some tcb =>
    if tcb.txData.isEmpty then some (true, conns, [])
    else
      let payload := tcb.txData.take MSS
      let data := tcb.segment tcb.sendNxt (TCP_FLAG_ACK ||| TCP_FLAG_PSH) payload
      if env.takes data then
        if tcb.sendNxt + payload.length < 2 ^ 32 then
          some (true, conns.set conn { tcb with
            sendNxt := tcb.sendNxt + payload.length, retryCount := MAX_RETRIES, retryTicks := RETRY_INTERVAL },
            [data])
        else none
      else some (false, conns, [data])

def receiveData (conns : Conns) (conn len : Nat) : Option (List UInt8) × Conns :=
  match conns.get conn with
  | none => (none, conns)
  | some tcb =>
    if tcb.rxData.isEmpty then (none, conns)
    else (some (tcb.rxData.take len), conns.set conn { tcb with rxData := tcb.rxData.drop len })

/-- `close`; `none` is the overflow check of the next sequence number. -/
def close (conns : Conns) (env : Env) (conn : Nat) : Option (Bool × Conns × List Packet) :=
  match conns.sending conn with
  | none => some (false, conns, [])
  | some tcb =>
    let fin := tcb.segment tcb.sendNxt (TCP_FLAG_FIN ||| TCP_FLAG_ACK) []
    if env.takes fin then
      if tcb.sendNxt + 1 < 2 ^ 32 then
        some (true, conns.set conn { tcb with
          sendNxt := tcb.sendNxt + 1
          state := if tcb.state = .closeWait then .lastAck else .finWait1
          retryCount := MAX_RETRIES, retryTicks := RETRY_INTERVAL }, [fin])
      else none
    else some (false, conns, [fin])

end Conns

end Zenus.Net
