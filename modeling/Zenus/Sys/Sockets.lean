import Zenus.Net.Socket
import Zenus.Sys.Isolation

/-! # The system calls on sockets

A descriptor of a socket stores the index of the socket in the pool of the network
layer, and the calls hand it on.  `eventfd2` uses the same field for numbers of its own.
-/

namespace Zenus.Sys

open Fs Net Net.Stack Function Lib.Run Option FdTable List

def MAX_XFER : Nat := 65536
def MAX_EVENTFDS : Nat := 64

/-- The files, the network layer and the counters of `eventfd2`. -/
structure World (F : Type) (σ : F → Type) where
  files : Files F σ
  net : Stack := {}
  eventfds : Fin MAX_EVENTFDS → Nat := fun _ => 0

/-- The calls of a run, with the arguments that were read from the caller's memory
    (`none` where that was refused), and the packets that arrive. -/
inductive SysCall where
  | file (call : Call)
  | fork (child : Nat)
  | exit
  | socket (domain kind : Nat)
  | bind (fd : Nat) (port : Option Nat)
  | listen (fd : Nat)
  | accept (fd : Nat)
  | connect (fd : Nat) (addr : Option (Ip × Nat))
  | send (fd len : Nat) (data : Option (List UInt8))
  | recv (fd len : Nat) (valid writable : Bool)
  | sendto (fd len : Nat) (data : Option (List UInt8)) (addr : Option (Ip × Nat))
  | recvfrom (fd len : Nat) (valid writable : Bool)
  | shutdown (fd : Nat)
  | eventfd2
  | packet (srcIp dstIp : Ip) (segment : List UInt8)
  | datagram (port : Nat) (data : List UInt8)

section Calls

variable {F : Type} {σ : F → Type}

/-- The socket of a descriptor of the running task. -/
def socketOf (w : World F σ) (caller : Caller) (fd : Nat) : Option Nat :=
  (fdGet w.files caller fd).bind FdEntry.socketId

/-- The world after a call on the network layer, with the value returned for its result. -/
def World.withNet {α : Type} (w : World F σ) (value : α → Int) (result : Except Panic (α × Stack)) :
    Except Panic (Int × World F σ) :=
  result.map fun done => (value done.1, { w with net := done.2 })

def statusOf (done : Bool) : Int := if done then 0 else -1

variable (w : World F σ) (caller : Caller) (env : NetEnv)

/-- A new socket gets a descriptor, or is closed again. -/
def socketFd (id : Nat) : Except Panic (Int × World F σ) :=
  match w.files.fds.allocSocket caller.task id with
  | some made => .ok (made.1, { w with files := { w.files with fds := made.2 } })
  | none => w.withNet (fun _ => -1) (w.net.close env id)

def sysSocket (domain kind : Nat) : Except Panic (Int × World F σ) :=
  match w.net.socket (domain % 256) (kind % 256) with
  | (none, net) => .ok (-1, { w with net })
  | (some id, net) => socketFd { w with net } caller env id

/-- A call on the socket of a descriptor; `call` gives `none` where it refuses its
    arguments. -/
def onSocket {α : Type} (fd : Nat) (value : α → Int) (call : Nat → Option (Except Panic (α × Stack))) :
    Except Panic (Int × World F σ) :=
  match (socketOf w caller fd).bind call with
  | none => .ok (-1, w)
  | some result => w.withNet value result

def sysBind (fd : Nat) (port : Option Nat) : Except Panic (Int × World F σ) :=
  onSocket w caller fd statusOf fun id => port.map fun port => w.net.bind id port

def sysListen (fd : Nat) : Except Panic (Int × World F σ) :=
  onSocket w caller fd statusOf fun id => some (w.net.listen id)

def sysAccept (fd : Nat) : Except Panic (Int × World F σ) :=
  match socketOf w caller fd with
  | none => .ok (-1, w)
  | some id => do
      match ← w.net.accept env id with
      | (none, net) => .ok (-1, { w with net })
      | (some new, net) => socketFd { w with net } caller env new

def sysConnect (fd : Nat) (addr : Option (Ip × Nat)) : Except Panic (Int × World F σ) :=
  onSocket w caller fd statusOf fun id => addr.map fun addr => w.net.connect env id addr.1 addr.2

/-- `len` for success. -/
def lengthOf (len : Nat) (done : Bool) : Int := if done then len else -1

def sysSend (fd len : Nat) (data : Option (List UInt8)) : Except Panic (Int × World F σ) :=
  onSocket w caller fd (lengthOf len) fun id =>
    if MAX_XFER < len then none else data.map fun data => w.net.send env id data

def sysSendto (fd len : Nat) (data : Option (List UInt8)) (addr : Option (Ip × Nat)) :
    Except Panic (Int × World F σ) :=
  onSocket w caller fd (lengthOf len) fun id =>
    if MAX_XFER < len then none
    else data.bind fun data => addr.map fun addr => w.net.sendto env id data addr.1 addr.2

/-- The number of bytes received, if they can be written to the caller's memory. -/
def receivedOf (writable : Bool) : Option (List UInt8) → Int
  | some bytes => if writable then bytes.length else -1
  | none => -1

/-- `sys_recv`, and `sys_recvfrom`, which fills in an address of zeroes. -/
def sysRecv (fd len : Nat) (valid writable : Bool) : Except Panic (Int × World F σ) :=
  onSocket w caller fd (receivedOf writable) fun id =>
    if MAX_XFER < len ∨ valid = false then none else some (w.net.recv id len)

def sysShutdown (fd : Nat) : Except Panic (Int × World F σ) :=
  onSocket w caller fd (fun _ => 0) fun id => some (w.net.close env id)

/-- The network layer after the socket of a descriptor, if it has one, is closed. -/
def closeSocketOf (fd : Nat) : Except Panic Stack :=
  match socketOf w caller fd with
  | some id => (w.net.close env id).map Prod.snd
  | none => .ok w.net

/-- `sys_close`: the socket of the descriptor is closed with it. -/
def sysCloseFd (fd : Nat) : Except Panic (Int × World F σ) :=
  if fd ≤ 2 then .ok (-1, w)
  else do
    let net ← closeSocketOf w caller env fd
    let closed := fdClose w.files caller fd
    .ok (statusOf closed.1, { w with files := closed.2, net })

/-- `sys_eventfd2`: the first counter that is not in use, as a socket of its own range. -/
def sysEventfd2 : Int × World F σ :=
  match (List.finRange MAX_EVENTFDS).find? fun i => w.eventfds i = 0 with
  | none => (-1, w)
  | some i =>
    let w := { w with eventfds := update w.eventfds i 1 }
    match w.files.fds.allocSocket caller.task (i + 0xFFFF) with
    | some made => (made.1, { w with files := { w.files with fds := made.2 } })
    | none => (-1, w)

variable [DecidableEq F] (ops : (f : F) → FileSystem (σ f))

def SysCall.perform : SysCall → Except Panic (Int × World F σ)
  | .file (.close fd) => sysCloseFd w caller env fd
  | .file call => .ok (0, { w with files := call.perform ops w.files caller })
  | .fork child =>
    .ok (child, { w with files := { w.files with fds := w.files.fds.cloneAllForTask caller.task child } })
  | .exit => .ok (0, { w with files := { w.files with fds := w.files.fds.closeAllForTask caller.task } })
  | .socket domain kind => sysSocket w caller env domain kind
  | .bind fd port => sysBind w caller fd port
  | .listen fd => sysListen w caller fd
  | .accept fd => sysAccept w caller env fd
  | .connect fd addr => sysConnect w caller env fd addr
  | .send fd len data => sysSend w caller env fd len data
  | .recv fd len valid writable => sysRecv w caller fd len valid writable
  | .sendto fd len data addr => sysSendto w caller env fd len data addr
  | .recvfrom fd len valid writable => sysRecv w caller fd len valid writable
  | .shutdown fd => sysShutdown w caller env fd
  | .eventfd2 => .ok (sysEventfd2 w caller)
  | .packet srcIp dstIp segment =>
    w.withNet (fun _ => 0) ((Stack.orPanic (w.net.conns.handleReceive env.toEnv srcIp dstIp segment)).map
      fun received => (received.1, { w.net with conns := received.2.1 }))
  | .datagram port data => .ok (0, { w with net := (w.net.udpEnqueue port data).2 })

/-- One call of a run, in its environment. -/
structure Occurrence where
  caller : Caller
  env : NetEnv
  call : SysCall

def worldStep (w : World F σ) (o : Occurrence) : Option (World F σ) :=
  match o.call.perform w o.caller o.env ops with
  | .ok done => some done.2
  | .error _ => none

end Calls

/-- Every socket that a descriptor names is in the pool. -/
def FdTable.InRange {F : Type} (table : FdTable F) : Prop :=
  ∀ fd entry id, table fd = some entry → entry.socketId = some id → id < MAX_SOCKETS

def InRange {F : Type} {σ : F → Type} (w : World F σ) : Prop := w.files.fds.InRange

/-- The call is not an `eventfd2` that gets a descriptor. -/
def MakesNoEventfd {F : Type} {σ : F → Type} (w : World F σ) : SysCall → Prop
  | .eventfd2 => (∀ i, w.eventfds i ≠ 0) ∨ ∀ fd, w.files.fds fd ≠ none
  | _ => True

section Proofs

variable {F : Type} {σ : F → Type} {w w' : World F σ} {caller : Caller} {env : NetEnv}
  {fd id src dst task : Nat}
variable {n : Int} {α : Type} {value : α → Int} {table table' : FdTable F}

theorem InRange.socketOf (inRange : InRange w) (found : socketOf w caller fd = some id) : id < MAX_SOCKETS := by
  obtain ⟨entry, held, socket⟩ := bind_eq_some_iff.mp found
  obtain ⟨i, -, stored⟩ := get_some (fdGet_eq held).1
  exact inRange i entry id stored socket

theorem FdTable.InRange.update {i : Fin MAX_FDS} {new : Option (FdEntry F)}
    (inRange : table.InRange) (fits : ∀ entry id, new = some entry → entry.socketId = some id → id < MAX_SOCKETS) :
    FdTable.InRange (update table i new) := by
  intro fd entry id stored socket
  rw [update_apply] at stored
  split at stored
  · exact fits entry id stored socket
  · exact inRange fd entry id stored socket

theorem FdTable.InRange.cloneAll (inRange : table.InRange) : (table.cloneAllForTask src dst).InRange := by
  have held : ∀ source ∈ table.ofTask src, ∀ id, source.2.socketId = some id → id < MAX_SOCKETS := by
    intro source member id socket
    exact inRange source.1 source.2 id (mem_ofTask member) socket
  unfold cloneAllForTask
  generalize table.ofTask src = sources at held
  induction sources generalizing table with
  | nil => exact inRange
  | cons source rest ih =>
    refine ih ?_ fun other member => held other (.tail _ member)
    cases copy : table.copyEntry dst source.2 with
    | none => simpa only [copy, map_none, getD_none] using inRange
    | some copied =>
      obtain ⟨i, entry, _, _, _, socket, made⟩ := copyEntry_eq_some copy
      simp only [copy, map_some, getD_some, made]
      refine inRange.update fun new id same socket' => ?_
      rw [← some.inj same] at socket'
      rcases socket with none | kept
      · cases socket'.symm.trans none
      · exact held source (.head _) id (kept ▸ socket')

theorem FdTable.InRange.closeAll (inRange : table.InRange) :
    (table.closeAllForTask task).InRange := fun fd entry id stored socket =>
  inRange fd entry id (filter_eq_some_iff.mp stored).1 socket

theorem FdTable.InRange.from {opened : Handle F → Prop} (inRange : table.InRange)
    (origins : table.From opened table') : table'.InRange := by
  intro fd entry id stored socket
  obtain ⟨j, source, held, same⟩ := origins.socket stored socket
  exact inRange j source id held same

variable (inRange : InRange w)

include inRange

theorem eventfd2_inRange_iff : InRange (sysEventfd2 w caller).2 ↔ MakesNoEventfd w .eventfd2 := by
  unfold sysEventfd2
  split
  · next none =>
    refine iff_of_true inRange (.inl fun i zero => ?_)
    simpa [zero] using find?_eq_none.mp none i (mem_finRange i)
  · next i found =>
    have zero : w.eventfds i = 0 := by simpa using find?_some found
    dsimp only
    split
    · next made put =>
      obtain ⟨fd, _, free, _, table⟩ := put_eq_some put
      refine iff_of_false (fun inRange' => ?_) ?_
      · have far := inRange' fd _ (i + 0xFFFF) (by rw [table]; exact update_self ..) rfl
        simp only [MAX_SOCKETS] at far
        omega
      · rintro (used | full)
        · exact used i zero
        · exact full fd free
    · next full => exact iff_of_true inRange (.inr (put_eq_none full))

/-- A call that does not index the pool out of range, and keeps the sockets of the
    descriptors in it. -/
structure Orderly (outcome : Except Panic (Int × World F σ)) : Prop where
  safe : Stack.Safe outcome
  inRange : ∀ done, outcome = .ok done → InRange done.2

theorem orderly_ok : Orderly (.ok (n, w)) :=
  ⟨safe_ok _, fun _ same => Except.ok.inj same ▸ inRange⟩

omit inRange in
theorem orderly_bind {result : Except Panic α} {next : α → Except Panic (Int × World F σ)}
    (safe : Stack.Safe result) (rest : ∀ a, result = .ok a → Orderly (next a)) : Orderly (result >>= next) := by
  refine ⟨safe.bind fun a made => (rest a made).safe, fun done same => ?_⟩
  obtain ⟨a, made, same⟩ := bind_eq_ok same
  exact (rest a made).inRange done same

theorem orderly_withNet {result : Except Panic (α × Stack)} (safe : Stack.Safe result) :
    Orderly (w.withNet value result) := by
  refine ⟨safe.map _, fun done same => ?_⟩
  cases result with
  | error why => cases same
  | ok a => exact Except.ok.inj same ▸ inRange

theorem orderly_socketFd (known : id < MAX_SOCKETS) : Orderly (socketFd w caller env id) := by
  unfold socketFd
  split
  · next made put =>
    obtain ⟨i, _, _, _, table⟩ := put_eq_some put
    refine orderly_ok ?_
    rw [InRange, table]
    refine FdTable.InRange.update inRange fun new id' same socket => ?_
    rw [← some.inj same] at socket
    exact some.inj socket ▸ known
  · exact orderly_withNet inRange (close_safe known)

theorem orderly_onSocket {call : Nat → Option (Except Panic (α × Stack))}
    (safe : ∀ id < MAX_SOCKETS, ∀ result, call id = some result → Stack.Safe result) :
    Orderly (onSocket w caller fd value call) := by
  unfold onSocket
  split
  · exact orderly_ok inRange
  · next result made =>
    obtain ⟨id, found, called⟩ := bind_eq_some_iff.mp made
    exact orderly_withNet inRange (safe id (inRange.socketOf found) result called)

theorem orderly_sysCloseFd : Orderly (sysCloseFd w caller env fd) := by
  unfold sysCloseFd
  split
  · exact orderly_ok inRange
  · refine orderly_bind ?_ fun _ _ => orderly_ok ?_
    · unfold closeSocketOf
      split
      · next found => exact (close_safe (inRange.socketOf found)).map _
      · exact safe_ok _
    · have quiet : Quiet (fun _ => False) w.files (fdClose w.files caller fd).2 := quiet_close
      exact FdTable.InRange.from inRange quiet.fds

variable [DecidableEq F] {ops : (f : F) → FileSystem (σ f)}

theorem perform_orderly {call : SysCall} (other : call ≠ .eventfd2) :
    Orderly (call.perform w caller env ops) := by
  cases call with
  | file call =>
    cases call with
    | close fd => exact orderly_sysCloseFd inRange
    | _ => exact orderly_ok (FdTable.InRange.from inRange (perform_effected ..).fds)
  | fork child => exact orderly_ok (FdTable.InRange.cloneAll inRange)
  | exit => exact orderly_ok (FdTable.InRange.closeAll inRange)
  | socket domain kind =>
    simp only [SysCall.perform, sysSocket]
    split
    · exact orderly_ok inRange
    · next id net made => exact orderly_socketFd inRange (socket_lt made)
  | bind fd port =>
    refine orderly_onSocket inRange fun id known result called => ?_
    obtain ⟨port, _, rfl⟩ := map_eq_some_iff.mp called
    exact bind_safe known
  | listen fd =>
    refine orderly_onSocket inRange fun id known result called => ?_
    cases called
    exact listen_safe known
  | accept fd =>
    simp only [SysCall.perform, sysAccept]
    split
    · exact orderly_ok inRange
    · next found =>
      refine orderly_bind (accept_safe (inRange.socketOf found)) fun made accepted => ?_
      obtain ⟨made, net⟩ := made
      cases made with
      | none => exact orderly_ok inRange
      | some id => exact orderly_socketFd inRange (accept_lt accepted)
  | connect fd addr =>
    refine orderly_onSocket inRange fun id known result called => ?_
    obtain ⟨addr, _, rfl⟩ := map_eq_some_iff.mp called
    exact connect_safe known
  | send fd len data =>
    refine orderly_onSocket inRange fun id known result called => ?_
    obtain ⟨_, called⟩ := ite_none_left_eq_some.mp called
    obtain ⟨data, _, rfl⟩ := map_eq_some_iff.mp called
    exact send_safe known
  | sendto fd len data addr =>
    refine orderly_onSocket inRange fun id known result called => ?_
    obtain ⟨_, called⟩ := ite_none_left_eq_some.mp called
    obtain ⟨data, _, called⟩ := bind_eq_some_iff.mp called
    obtain ⟨addr, _, rfl⟩ := map_eq_some_iff.mp called
    exact sendto_safe known
  | recv fd len valid writable | recvfrom fd len valid writable =>
    refine orderly_onSocket inRange fun id known result called => ?_
    obtain ⟨_, called⟩ := ite_none_left_eq_some.mp called
    cases called
    exact recv_safe known
  | shutdown fd =>
    refine orderly_onSocket inRange fun id known result called => ?_
    cases called
    exact close_safe known
  | eventfd2 => exact absurd rfl other
  | datagram port data => exact orderly_ok inRange
  | packet srcIp dstIp segment =>
    simp only [SysCall.perform]
    exact orderly_withNet inRange ((safe_orPanic _).map _)

theorem perform_safe (call : SysCall) : Stack.Safe (call.perform w caller env ops) := by
  by_cases event : call = .eventfd2
  · subst event
    exact safe_ok _
  · exact (perform_orderly inRange event).safe

theorem step_inRange_iff (o : Occurrence) :
    (worldStep ops w o = none ∧ MakesNoEventfd w o.call) ∨
      ∃ w', worldStep ops w o = some w' ∧ True ∧ (InRange w' ↔ MakesNoEventfd w o.call) := by
  obtain ⟨caller, env, call⟩ := o
  by_cases event : call = .eventfd2
  · subst event
    exact .inr ⟨_, rfl, trivial, eventfd2_inRange_iff inRange⟩
  · have quiet : MakesNoEventfd w call := by
      cases call with
      | eventfd2 => exact absurd rfl event
      | _ => trivial
    unfold worldStep
    cases done : call.perform w caller env ops with
    | error why => exact .inl ⟨rfl, quiet⟩
    | ok result => exact .inr ⟨_, rfl, trivial, iff_of_true ((perform_orderly inRange event).inRange _ done) quiet⟩

omit inRange

/-- Every socket that a descriptor names stays in the pool throughout a run exactly if no
    `eventfd2` in it gets a descriptor; and then no call indexes the pool out of range. -/
theorem sockets_in_range_iff (ops : (f : F) → FileSystem (σ f)) (inRange : InRange w) (run : List Occurrence) :
    (Always (worldStep ops) InRange run w ↔
      Along (worldStep ops) (fun w o => MakesNoEventfd w o.call) run w) ∧
    (Along (worldStep ops) (fun w o => MakesNoEventfd w o.call) run w →
      Along (worldStep ops) (fun w o => Stack.Safe (o.call.perform w o.caller o.env ops)) run w) := by
  refine ⟨ always_iff_along_partial (fun _ => True) (fun w o _ fits => step_inRange_iff fits o) trivial inRange,
    Along.under InRange (fun w o w' fits quiet stepped => ?_) (fun w o fits _ => perform_safe fits o.call)
      inRange⟩
  rcases step_inRange_iff fits o with ⟨stopped, _⟩ | ⟨next, made, _, exact'⟩
  · exact absurd (stopped.symm.trans stepped) (some_ne_none w').symm
  · rw [← some.inj (made.symm.trans stepped)]
    exact exact'.mpr quiet

end Proofs

section Sends

variable {F : Type} {σ : F → Type} {w w' : World F σ} {caller : Caller} {env : NetEnv}
  {conns conns' : Conns} {conn : Nat} {tcb : Tcb} {data : List UInt8}

/-- What a connection has queued to send. -/
def queued (conns : Conns) (conn : Nat) : List UInt8 := (conns.get conn).elim [] Tcb.txData

/-- A count says how much of the data was queued, and with an error none was. -/
def Reports (queue queue' data : List UInt8) (n : Int) : Prop :=
  (0 ≤ n → queue' = queue ++ data.take n.toNat) ∧ (n < 0 → queue' = queue)

/-- The segment that `flush_tx` builds once the data is queued. -/
def nextSegment (tcb : Tcb) (data : List UInt8) : Packet :=
  tcb.segment tcb.sendNxt (TCP_FLAG_ACK ||| TCP_FLAG_PSH) ((tcb.txData ++ data).take MSS)

/-- There is nothing to queue, or there is room for all of the data and the network takes
    the next segment. -/
def Carries (env : NetEnv) (tcb : Tcb) (data : List UInt8) : Prop :=
  data = [] ∨ TX_BUF_LEN ≤ tcb.txData.length ∨
    data.length ≤ TX_BUF_LEN - tcb.txData.length ∧ env.takes (nextSegment tcb data) = true

theorem nextSegment_queued (tcb : Tcb) (data : List UInt8) :
    nextSegment { tcb with txData := tcb.txData ++ data } [] = nextSegment tcb data := by
  rw [nextSegment, append_nil]
  rfl

theorem sending_some (sends : conns.sending conn = some tcb) :
    conn < MAX_CONNS ∧ queued conns conn = tcb.txData := by
  obtain ⟨here, -⟩ := filter_eq_some_iff.mp sends
  refine ⟨by_contra fun far => ?_, by rw [queued, here]; rfl⟩
  simp [Conns.get, far] at here

theorem queued_set (known : conn < MAX_CONNS) : queued (conns.set conn tcb) conn = tcb.txData := by
  simp [queued, Conns.get, Conns.set, known]

theorem flushTx_spec {out : Bool × Conns × List Packet} (sends : conns.sending conn = some tcb)
    (more : tcb.txData ≠ []) (flushed : conns.flushTx env.toEnv conn = some out) :
    queued out.2.1 conn = tcb.txData ∧ out.1 = env.takes (nextSegment tcb []) := by
  obtain ⟨known, queue⟩ := sending_some sends
  rw [Conns.flushTx, sends] at flushed
  rw [nextSegment, append_nil]
  simp only [List.isEmpty_iff, if_neg more] at flushed
  split_ifs at flushed with taken <;> cases flushed
  · exact ⟨queued_set known, taken.symm⟩
  · exact ⟨queue, (Bool.eq_false_of_not_eq_true taken).symm⟩

/-- The report on the part of the data that was queued. -/
theorem reports_flushed {queue copied : List UInt8} {taken : Bool} (part : copied = data.take copied.length)
    (more : copied ≠ []) : Reports queue (queue ++ copied) data (if taken then (data.length : Int) else -1) ↔
      copied.length = data.length ∧ taken = true := by
  cases taken with
  | false =>
    refine iff_of_false (fun report => more ?_) (fun both => Bool.false_ne_true both.2)
    exact List.append_right_eq_self.mp (report.2 (by simp))
  | true =>
    refine ⟨fun report => ⟨?_, rfl⟩, fun ⟨whole, _⟩ => ⟨fun _ => ?_, fun no => absurd no (by simp)⟩⟩
    · have same := report.1 (by simp)
      rw [if_pos rfl, Int.toNat_natCast, take_length, append_cancel_left_eq] at same
      rw [same]
    · rw [part, whole]
      rfl

/-- The report is right exactly where nothing can be queued, or all of the data can and the
    network takes the segment. -/
theorem send_reports_iff {fd id : Nat} {n : Int} (socket : socketOf w caller fd = some id)
    (known : id < MAX_SOCKETS) (kind : (w.net.pool ⟨id, known⟩).kind = .tcp conn) (small : data.length ≤ MAX_XFER)
    (run : sysSend w caller env fd data.length (some data) = .ok (n, w')) :
    Reports (queued w.net.conns conn) (queued w'.net.conns conn) data n ↔
      ((w.net.pool ⟨id, known⟩).state = .connected ∨ (w.net.pool ⟨id, known⟩).state = .bound →
        ∀ tcb ∈ w.net.conns.sending conn, Carries env tcb data) := by
  simp only [sysSend, onSocket, socket, bind_some, if_neg small.not_gt, map_some, World.withNet, Stack.send,
    sock, dif_pos known, Bind.bind, Except.bind, kind] at run
  have refused : ∀ queue, Reports queue queue data (-1) := fun _ => ⟨fun no => absurd no (by decide), fun _ => rfl⟩
  split_ifs at run with closed
  · cases run
    exact iff_of_true (refused _) fun up => absurd up (not_or.mpr closed)
  have up : (w.net.pool ⟨id, known⟩).state = .connected ∨ (w.net.pool ⟨id, known⟩).state = .bound := by
    by_contra down
    exact closed (not_or.mp down)
  rw [imp_iff_right up]
  unfold Conns.sendData at run
  cases sends : w.net.conns.sending conn with
  | none =>
    simp only [sends] at run
    cases run
    exact iff_of_true (refused _) fun _ no => by cases no
  | some tcb =>
    obtain ⟨inside, queue⟩ := sending_some sends
    simp only [sends] at run
    generalize part : data.take (TX_BUF_LEN - tcb.txData.length) = copied at run
    by_cases nothing : copied = []
    · simp only [nothing, isEmpty_nil, append_nil] at run
      cases run
      rw [queue, queued_set inside]
      refine iff_of_true (refused _) fun _ same => ?_
      cases same
      rcases take_eq_nil_iff.mp (part.trans nothing) with full | empty
      · exact .inr (.inl (by omega))
      · exact .inl empty
    · rw [isEmpty_eq_false_iff.mpr nothing] at run
      have sends' : (w.net.conns.set conn { tcb with txData := tcb.txData ++ copied }).sending conn =
          some { tcb with txData := tcb.txData ++ copied } := by
        simpa [Conns.sending, Conns.get, Conns.set, inside] using (filter_eq_some_iff.mp sends).2
      cases flushed : (w.net.conns.set conn { tcb with txData := tcb.txData ++ copied }).flushTx env.toEnv conn with
      | none => simp [flushed, orPanic, Except.map] at run
      | some out =>
        obtain ⟨kept, sent⟩ := flushTx_spec sends' (append_ne_nil_of_right_ne_nil _ nothing) flushed
        simp only [Bool.not_false, flushed, orPanic, Except.map, sent, lengthOf] at run
        cases run
        have whole : copied.length = data.length ↔ data.length ≤ TX_BUF_LEN - tcb.txData.length := by
          rw [← part, length_take]
          omega
        rw [kept, queue, reports_flushed (by rw [← part, length_take, ← take_eq_take_min]) nothing, whole]
        constructor
        · rintro ⟨fit, taken⟩ tcb' same
          cases same
          rw [← part, take_of_length_le fit, nextSegment_queued] at taken
          exact .inr (.inr ⟨fit, taken⟩)
        · intro carries
          rcases carries tcb rfl with empty | full | ⟨fit, taken⟩
          · exact absurd (by rw [← part, empty, take_nil]) nothing
          · exact absurd (by rw [← part, Nat.sub_eq_zero_of_le full, take_zero]) nothing
          · rw [← part, take_of_length_le fit, nextSegment_queued]
            exact ⟨fit, taken⟩

end Sends

section Sample

def noNet : NetEnv :=
  { isn := 0, ticks := 0, ifaceIp := none, takes := fun _ => false, takesUdp := fun _ _ _ _ _ => false }

def firstCalls (calls : List SysCall) : List Occurrence := calls.map (⟨firstTask, noNet, ·⟩)

def bootWorld : World Unit fun _ => TmpFs := { files := tmpfsRoot }

theorem bootWorld_inRange : InRange bootWorld := fun _ _ _ no => by cases no

theorem sockets_in_range_stream :
    Always (worldStep fun _ => TmpFs.fileSystem) InRange
      (firstCalls [.socket AF_INET SOCK_STREAM, .bind 0 (some 80), .file (.close 0)]) bootWorld :=
  (sockets_in_range_iff (fun _ => TmpFs.fileSystem) bootWorld_inRange _).1.mpr
    ⟨trivial, fun _ _ => ⟨trivial, fun _ _ => ⟨trivial, fun _ _ => trivial⟩⟩⟩

def panicOf {α : Type} : Except Panic α → Option Panic
  | .ok _ => none
  | .error why => some why

/-- The fourth `eventfd2` gives descriptor 3; closing it indexes the pool at 65538. -/
theorem eventfd_close_panics :
    ((exec (worldStep fun _ => TmpFs.fileSystem)
        (firstCalls [.eventfd2, .eventfd2, .eventfd2, .eventfd2]) bootWorld).map fun w =>
      ((w.files.fds.get 3).map (·.socketId),
        panicOf ((SysCall.file (.close 3)).perform w firstTask noNet fun _ => TmpFs.fileSystem))) =
      some (some (some 65538), some .index) := by
  decide +kernel

/-- Descriptor 0 is a connected socket with data queued. -/
def connected (queue : List UInt8) : World Unit fun _ => TmpFs :=
  { files := { tmpfsRoot with fds := (tmpfsRoot.fds.allocSocket firstTask.task 0).elim tmpfsRoot.fds Prod.snd }
    net.pool := fun _ => { state := .connected, kind := .tcp 0 }
    net.conns := fun _ => some {
      state := .established, localIp := .zero, localPort := 80, remoteIp := .zero, remotePort := 90,
      sendUna := 1, sendNxt := 1, recvNxt := 1, txData := queue } }

def openNet : NetEnv := { noNet with takes := fun _ => true }

theorem send_reports_two : ∃ n w', sysSend (connected []) firstTask openNet 0 2 (some [1, 2]) = .ok (n, w') ∧
    Reports (queued (connected []).net.conns 0) (queued w'.net.conns 0) [1, 2] n :=
  ⟨_, _, rfl, (send_reports_iff (w := connected []) (show socketOf _ firstTask 0 = some 0 by decide) (by decide) rfl
    (by decide) (show sysSend _ _ openNet 0 2 _ = _ from rfl)).mpr fun _ tcb same => by cases same; exact .inr (.inr ⟨by decide, rfl⟩)⟩

/-- Where the queue takes one byte more, two are reported. -/
theorem send_overreports :
    ((sysSend (connected (.replicate 4095 0)) firstTask openNet 0 2 (some [1, 2])).toOption.map fun done =>
      (done.1, (queued done.2.net.conns 0).length)) = some (2, 4096) := by
  decide +kernel

end Sample

end Zenus.Sys
