import Zenus.Net.Tcp

/-! # Sockets

A fixed pool of sockets over the TCP layer.  A socket is named by its index; some
operations check it against the size of the pool, the others index the pool with it.
-/

namespace Zenus.Net

def AF_INET : Nat := 2
def SOCK_STREAM : Nat := 1
def SOCK_DGRAM : Nat := 2
def MAX_SOCKETS : Nat := 128
def MAX_UDP_RECV : Nat := 8

/-- What stops the kernel. -/
inductive Panic where
  | index
  | overflow
  deriving DecidableEq, Repr

inductive SocketState where
  | free
  | created
  | bound
  | listening
  | connected
  | closing
  deriving DecidableEq, Repr

/-- A UDP socket; `recvBuf` is its ring of received datagrams. -/
structure UdpSocket where
  localPort : Nat := 0
  dstIp : Ip := .zero
  dstPort : Nat := 0
  connected : Bool := false
  recvBuf : List (List UInt8) := []

inductive SocketKind where
  | tcp (conn : Nat)
  | udp (us : UdpSocket)

structure Socket where
  state : SocketState := .free
  domain : Nat := 0
  kind : SocketKind := .tcp 0

abbrev SocketPool := Fin MAX_SOCKETS → Socket

/-- The network layer: the sockets, the connection blocks, and the next ephemeral port. -/
structure Stack where
  pool : SocketPool := fun _ => {}
  conns : Conns := fun _ => none
  nextEphemeral : Nat := 49152

/-- What the network layer reads from outside: whether a datagram is sent, besides what
    TCP reads. -/
structure NetEnv extends Env where
  takesUdp : (srcPort dstPort : Nat) → (srcIp dstIp : Ip) → List UInt8 → Bool

namespace Stack

/-- `SOCKET_POOL.sockets[fd]` -/
def sock (net : Stack) (fd : Nat) : Except Panic Socket :=
  if known : fd < MAX_SOCKETS then .ok (net.pool ⟨fd, known⟩) else .error .index

def put (net : Stack) (fd : Nat) (s : Socket) : Stack :=
  if known : fd < MAX_SOCKETS then { net with pool := Function.update net.pool ⟨fd, known⟩ s } else net

/-- The result of a TCP call, where the kernel goes on. -/
def orPanic {α : Type} : Option α → Except Panic α
  | some a => .ok a
  | none => .error .overflow

def allocSock (net : Stack) : Option (Fin MAX_SOCKETS × Stack) :=
  ((List.finRange MAX_SOCKETS).find? fun i => (net.pool i).state = .free).map fun i =>
    (i, { net with pool := Function.update net.pool i { net.pool i with state := .created } })

def state (net : Stack) (sock : Nat) : SocketState :=
  if known : sock < MAX_SOCKETS then (net.pool ⟨sock, known⟩).state else .free

def socket (net : Stack) (domain kind : Nat) : Option Nat × Stack :=
  if domain ≠ AF_INET then (none, net)
  else
    match net.allocSock with
    | none => (none, net)
    | some (fd, net) =>
      let s := { net.pool fd with domain := domain }
      if kind = SOCK_STREAM then (some fd, net.put fd { s with kind := .tcp 0 })
      else if kind = SOCK_DGRAM then (some fd, net.put fd { s with kind := .udp {} })
      else (none, net.put fd { s with state := .free })

def bind (net : Stack) (fd port : Nat) : Except Panic (Bool × Stack) :=
  if net.state fd ≠ .created then .ok (false, net)
  else do
    let s ← net.sock fd
    match s.kind with
    | .tcp _ =>
      match net.conns.listen port with
      | (some conn, conns) => .ok (true, { net with conns }.put fd { s with state := .bound, kind := .tcp conn })
      | (none, conns) => .ok (false, { net with conns })
    | .udp us => .ok (true, net.put fd { s with state := .bound, kind := .udp { us with localPort := port } })

def listen (net : Stack) (fd : Nat) : Except Panic (Bool × Stack) :=
  if net.state fd ≠ .bound then .ok (false, net)
  else do
    let s ← net.sock fd
    match s.kind with
    | .tcp _ => .ok (true, net.put fd { s with state := .listening })
    | .udp _ => .ok (false, net)

def findTcpListenerPort (net : Stack) (fd : Nat) : Except Panic (Option Nat) := do
  let s ← net.sock fd
  if s.state ≠ .listening then .ok none
  else
    match s.kind with
    | .tcp conn => .ok ((net.conns.get conn).map Tcb.localPort)
    | .udp _ => .ok none

def isSocketForConn (net : Stack) (conn : Nat) : Bool :=
  (List.finRange MAX_SOCKETS).any fun i =>
    match (net.pool i).kind with
    | .tcp c => c == conn && ((net.pool i).state == .connected || (net.pool i).state == .closing)
    | .udp _ => false

/-- The first of the lowest connections that is established and has no socket. -/
def readyConn (net : Stack) : Option Nat :=
  (List.range 16).find? fun i =>
    ((net.conns.get i).any fun tcb => tcb.state == .established) && !net.isSocketForConn i

def accept (net : Stack) (env : NetEnv) (fd : Nat) : Except Panic (Option Nat × Stack) :=
  if net.state fd ≠ .listening then .ok (none, net)
  else do
    match ← net.findTcpListenerPort fd with
    | none => .ok (none, net)
    | some _ =>
      match net.readyConn with
      | none =>
        let polled ← orPanic (net.conns.pollRetransmit env.toEnv)
        .ok (none, { net with conns := polled.1 })
      | some conn =>
        match net.allocSock with
        | none => .ok (none, net)
        | some (newFd, net) =>
          let net := net.put newFd { net.pool newFd with state := .connected, kind := .tcp conn }
          let polled ← orPanic (net.conns.pollRetransmit env.toEnv)
          .ok (some newFd, { net with conns := polled.1 })

def allocateEphemeralPort (net : Stack) : Nat × Stack :=
  (net.nextEphemeral,
    { net with nextEphemeral := if 65534 ≤ net.nextEphemeral then 49152 else net.nextEphemeral + 1 })

def connectFrom (net : Stack) (env : NetEnv) (fd : Nat) (s : Socket) (localPort : Nat) (dstIp : Ip) (dstPort : Nat) :
    Except Panic (Bool × Stack) := do
  match ← orPanic (net.conns.connect env.toEnv localPort dstIp dstPort) with
  | (some conn, conns, _) => .ok (true, { net with conns }.put fd { s with state := .connected, kind := .tcp conn })
  | (none, conns, _) => .ok (false, { net with conns })

def connect (net : Stack) (env : NetEnv) (fd : Nat) (dstIp : Ip) (dstPort : Nat) : Except Panic (Bool × Stack) :=
  if net.state fd ≠ .created ∧ net.state fd ≠ .bound then .ok (false, net)
  else do
    let s ← net.sock fd
    match s.kind with
    | .tcp conn =>
      if s.state = .bound then
        match net.conns.get conn with
        | none => .ok (false, net)
        | some tcb => net.connectFrom env fd s tcb.localPort dstIp dstPort
      else
        let (port, net) := net.allocateEphemeralPort
        match net.conns.listen port with
        | (none, conns) => .ok (false, { net with conns })
        | (some listener, conns) =>
          let s := { s with kind := .tcp listener }
          ({ net with conns }.put fd s).connectFrom env fd s port dstIp dstPort
    | .udp us =>
      .ok (true, net.put fd { s with
        state := .connected, kind := .udp { us with dstIp, dstPort, connected := true } })

def send (net : Stack) (env : NetEnv) (fd : Nat) (data : List UInt8) : Except Panic (Bool × Stack) := do
  let s ← net.sock fd
  match s.kind with
  | .tcp conn =>
    if s.state ≠ .connected ∧ s.state ≠ .bound then .ok (false, net)
    else
      match net.conns.sendData conn data with
      | (false, conns) => .ok (false, { net with conns })
      | (true, conns) =>
        let flushed ← orPanic (conns.flushTx env.toEnv conn)
        .ok (flushed.1, { net with conns := flushed.2.1 })
  | .udp us =>
    if us.connected then
      .ok (env.takesUdp us.localPort us.dstPort (env.ifaceIp.getD .zero) us.dstIp data, net)
    else .ok (false, net)

def sendto (net : Stack) (env : NetEnv) (fd : Nat) (data : List UInt8) (dstIp : Ip) (dstPort : Nat) :
    Except Panic (Bool × Stack) := do
  let s ← net.sock fd
  match s.kind with
  | .tcp _ => .ok (false, net)
  | .udp us => .ok (env.takesUdp us.localPort dstPort (env.ifaceIp.getD .zero) dstIp data, net)

def recv (net : Stack) (fd len : Nat) : Except Panic (Option (List UInt8) × Stack) := do
  let s ← net.sock fd
  match s.kind with
  | .tcp conn =>
    let received := net.conns.receiveData conn len
    .ok (received.1, { net with conns := received.2 })
  | .udp us =>
    match us.recvBuf with
    | [] => .ok (none, net)
    | datagram :: rest =>
      .ok (some (datagram.take len), net.put fd { s with kind := .udp { us with recvBuf := rest } })

def close (net : Stack) (env : NetEnv) (fd : Nat) : Except Panic (Bool × Stack) := do
  let s ← net.sock fd
  let net := net.put fd { s with state := .free }
  match s.kind with
  | .tcp conn =>
    let closed ← orPanic (net.conns.close env.toEnv conn)
    .ok (closed.1, { net with conns := closed.2.1 })
  | .udp _ => .ok (true, net)

/-- A received datagram goes to the first UDP socket of its port, unless its ring is full. -/
def udpEnqueue (net : Stack) (port : Nat) (data : List UInt8) : Bool × Stack :=
  let takes := fun i : Fin MAX_SOCKETS =>
    match (net.pool i).kind with
    | .udp us => us.localPort == port && (net.pool i).state != .free
    | .tcp _ => false
  match (List.finRange MAX_SOCKETS).find? takes with
  | none => (false, net)
  | some i =>
    match (net.pool i).kind with
    | .tcp _ => (false, net)
    | .udp us =>
      if MAX_UDP_RECV ≤ us.recvBuf.length then (true, net)
      else (true, net.put i { net.pool i with kind := .udp { us with recvBuf := us.recvBuf ++ [data.take 1500] } })

/-! ## Indices -/

def Safe {α : Type} (result : Except Panic α) : Prop := result ≠ .error .index

section Indices

variable {α β : Type} {net net' : Stack} {env : NetEnv} {fd port localPort dstPort len domain kind id : Nat}
  {next : α → Except Panic β} {result : Except Panic α}

theorem safe_ok (a : α) : Safe (.ok a) := fun no => by cases no

theorem safe_orPanic (result : Option α) : Safe (orPanic result) := by
  intro no
  cases result with
  | none | some a => cases no

theorem Safe.bind (safe : Safe result)
    (rest : ∀ a, result = .ok a → Safe (next a)) : Safe (result >>= next) := by
  cases result with
  | error why => exact fun no => safe (congrArg Except.error (Except.error.inj no))
  | ok a => exact rest a rfl

theorem Safe.map (safe : Safe result) (f : α → β) : Safe (result.map f) := by
  cases result with
  | error why => exact fun no => safe (congrArg Except.error (Except.error.inj no))
  | ok a => exact safe_ok _

variable (known : fd < MAX_SOCKETS) {dstIp : Ip}

include known

theorem sock_safe : Safe (net.sock fd) := by
  rw [sock, dif_pos known]
  exact safe_ok _

theorem bind_safe : Safe (net.bind fd port) := by
  unfold Stack.bind
  split
  · exact safe_ok _
  · refine (sock_safe known).bind fun s _ => ?_
    split
    · split <;> exact safe_ok _
    · exact safe_ok _

theorem listen_safe : Safe (net.listen fd) := by
  unfold Stack.listen
  split
  · exact safe_ok _
  · refine (sock_safe known).bind fun s _ => ?_
    split <;> exact safe_ok _

theorem accept_safe : Safe (net.accept env fd) := by
  unfold Stack.accept
  split
  · exact safe_ok _
  · refine Safe.bind ?_ fun found _ => ?_
    · refine (sock_safe known).bind fun s _ => ?_
      split
      · exact safe_ok _
      · split <;> exact safe_ok _
    · split
      · exact safe_ok _
      · split
        · exact (safe_orPanic _).bind fun _ _ => safe_ok _
        · split
          · exact safe_ok _
          · exact (safe_orPanic _).bind fun _ _ => safe_ok _

omit known

theorem connectFrom_safe {s : Socket} : Safe (net.connectFrom env fd s localPort dstIp dstPort) := by
  refine (safe_orPanic _).bind fun made _ => ?_
  split <;> exact safe_ok _

section

variable (known : fd < MAX_SOCKETS) {data : List UInt8}

include known

theorem connect_safe : Safe (net.connect env fd dstIp dstPort) := by
  unfold Stack.connect
  split
  · exact safe_ok _
  · refine (sock_safe known).bind fun s _ => ?_
    split
    · split
      · split
        · exact safe_ok _
        · exact connectFrom_safe
      · dsimp only
        split
        · exact safe_ok _
        · exact connectFrom_safe
    · exact safe_ok _

theorem send_safe : Safe (net.send env fd data) := by
  refine (sock_safe known).bind fun s _ => ?_
  split
  · split
    · exact safe_ok _
    · split
      · exact safe_ok _
      · exact (safe_orPanic _).bind fun _ _ => safe_ok _
  · split <;> exact safe_ok _

theorem sendto_safe : Safe (net.sendto env fd data dstIp dstPort) := by
  refine (sock_safe known).bind fun s _ => ?_
  split <;> exact safe_ok _

theorem recv_safe : Safe (net.recv fd len) := by
  refine (sock_safe known).bind fun s _ => ?_
  split
  · exact safe_ok _
  · split <;> exact safe_ok _

theorem close_safe : Safe (net.close env fd) := by
  refine (sock_safe known).bind fun s _ => ?_
  split
  · exact (safe_orPanic _).bind fun _ _ => safe_ok _
  · exact safe_ok _

end

theorem socket_lt (made : net.socket domain kind = (some id, net')) : id < MAX_SOCKETS := by
  unfold Stack.socket at made
  split at made
  · cases made
  · split at made
    · cases made
    · next fd net₁ _ =>
      split at made
      · rw [← Option.some.inj (Prod.mk.inj made).1]
        exact fd.isLt
      · split at made
        · rw [← Option.some.inj (Prod.mk.inj made).1]
          exact fd.isLt
        · cases made

theorem bind_eq_ok {b : β} (done : (result >>= next) = .ok b) : ∃ a, result = .ok a ∧ next a = .ok b := by
  cases result with
  | error why => cases done
  | ok a => exact ⟨a, rfl, done⟩

theorem accept_lt (made : net.accept env fd = .ok (some id, net')) : id < MAX_SOCKETS := by
  unfold Stack.accept at made
  split at made
  · cases made
  · obtain ⟨found, _, made⟩ := bind_eq_ok made
    cases found with
    | none => cases made
    | some port =>
      dsimp only at made
      split at made
      · obtain ⟨polled, _, made⟩ := bind_eq_ok made
        cases made
      · split at made
        · cases made
        · next newFd net₁ _ =>
          obtain ⟨polled, _, made⟩ := bind_eq_ok made
          rw [← Option.some.inj (Prod.mk.inj (Except.ok.inj made)).1]
          exact newFd.isLt

end Indices

end Stack

end Zenus.Net
