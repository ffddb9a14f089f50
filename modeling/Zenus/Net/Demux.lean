import Zenus.Lib.Run
import Zenus.Net.Tcp

/-! # Which block a segment goes to

The lookup of `handle_receive` takes the last block of the table that accepts the
addresses of a segment, and a listener accepts every segment for its port.  A connection
gets its segments as long as no listener on its port and no other block for the same
peer stands after it.
-/

namespace Zenus.Net

open Function Lib.Run Option Conns List

def Tcb.Live (tcb : Tcb) : Prop := tcb.listening = false ∧ tcb.state ≠ .closed

/-- The block in a slot accepts segments from the peer to the port. -/
def Conns.AcceptsAt (conns : Conns) (i : Fin MAX_CONNS) (srcIp : Ip) (srcPort dstPort : Nat) : Prop :=
  ∃ tcb, conns i = some tcb ∧ tcb.accepts srcIp srcPort dstPort = true

/-- Every connection that is not closed is the only one between its ends, and gets the
    segments of its peer. -/
structure Demuxed (conns : Conns) : Prop where
  unique : ∀ i j tcb tcb', conns i = some tcb → conns j = some tcb' → tcb.Live → tcb'.Live →
    tcb.localPort = tcb'.localPort → tcb.remoteIp = tcb'.remoteIp → tcb.remotePort = tcb'.remotePort → i = j
  direct : ∀ i tcb, conns i = some tcb → tcb.Live →
    conns.lookup tcb.remoteIp tcb.remotePort tcb.localPort = some i

def ListenersListen (conns : Conns) : Prop :=
  ∀ i tcb, conns i = some tcb → tcb.state = .listen → tcb.listening = true

/-- The operations that open connections, and a received segment. -/
inductive TcpOp where
  | listen (port : Nat)
  | connect (env : Env) (localPort : Nat) (dstIp : Ip) (dstPort : Nat)
  | segment (env : Env) (srcIp dstIp : Ip) (bytes : List UInt8)

def TcpOp.step (conns : Conns) : TcpOp → Option Conns
  | .listen port => some (conns.listen port).2
  | .connect env localPort dstIp dstPort => (conns.connect env localPort dstIp dstPort).map (·.2.1)
  | .segment env srcIp dstIp bytes => (conns.handleReceive env srcIp dstIp bytes).map (·.2.1)

/-- The slot of a new listener. -/
def Conns.listensAt (conns : Conns) (port : Nat) : Option (Fin MAX_CONNS) :=
  if (conns.connByPort port).isSome then none else conns.findSlot

/-- The slot of the connection that `connect` opens. -/
def Conns.connectsAt (conns : Conns) (env : Env) (localPort : Nat) (dstIp : Ip) (dstPort : Nat) :
    Option (Fin MAX_CONNS) :=
  let localIp := env.ifaceIp.getD .zero
  if localIp = .zero ∨ localIp = ⟨127, 0, 0, 1⟩ then none
  else if env.takes (buildSegment localIp dstIp localPort dstPort env.isn 0 0x80 TCP_FLAG_SYN 65535 synOptions) &&
      decide (env.isn + 1 < 2 ^ 32) then conns.findSlot
  else none

/-- The slot of the connection that a SYN for a listener opens. -/
def Conns.opensFor (conns : Conns) (env : Env) (srcIp dstIp : Ip) (seg : Segment) : Option (Fin MAX_CONNS) :=
  if seg.has TCP_FLAG_SYN && !seg.has TCP_FLAG_ACK &&
      env.takes (Tcb.reply srcIp dstIp seg env.isn (seqAdvance seg.seq 0 1) (TCP_FLAG_SYN ||| TCP_FLAG_ACK) 65535) &&
      decide (env.isn + 1 < 2 ^ 32) then conns.findSlot
  else none

/-- A listener is put after no connection of its port; a connection is put after every
    listener and block for its ends, and after no other connection between them. -/
def Orderly (conns : Conns) : TcpOp → Prop
  | .listen port => ∀ idx, conns.listensAt port = some idx →
      ∀ i tcb, i < idx → conns i = some tcb → tcb.Live → tcb.localPort ≠ port
  | .connect env localPort dstIp dstPort =>
    ∀ idx, conns.connectsAt env localPort dstIp dstPort = some idx →
      (∀ k, idx < k → ¬ conns.AcceptsAt k dstIp dstPort localPort) ∧
      ∀ i tcb, i < idx → conns i = some tcb → tcb.Live →
        ¬ (tcb.localPort = localPort ∧ tcb.remotePort = dstPort ∧ tcb.remoteIp = dstIp)
  | .segment env srcIp dstIp bytes =>
    ∀ seg idx tcb child, parseSegment srcIp dstIp bytes = some seg → seg.has TCP_FLAG_RST = false →
      conns.lookup srcIp seg.srcPort seg.dstPort = some idx → conns idx = some tcb → tcb.state = .listen →
      conns.opensFor env srcIp dstIp seg = some child → idx < child

/-! ## Blocks -/

/-- The block has kept its ends, and closed or listening it stays so. -/
structure Tcb.Same (tcb tcb' : Tcb) : Prop where
  localPort : tcb'.localPort = tcb.localPort
  remotePort : tcb'.remotePort = tcb.remotePort
  remoteIp : tcb'.remoteIp = tcb.remoteIp
  listening : tcb'.listening = tcb.listening

/-- It has kept its state as well. -/
structure Tcb.Kept (tcb tcb' : Tcb) : Prop extends tcb.Same tcb' where
  state : tcb'.state = tcb.state

section Blocks

variable {tcb tcb' tcb'' : Tcb} {seg : Segment} {srcIp dstIp : Ip} {ticks srcPort dstPort : Nat}

theorem Tcb.Same.refl (tcb : Tcb) : tcb.Same tcb := ⟨rfl, rfl, rfl, rfl⟩

theorem Tcb.Same.trans (first : tcb.Same tcb') (second : tcb'.Same tcb'') : tcb.Same tcb'' :=
  ⟨second.1.trans first.1, second.2.trans first.2, second.3.trans first.3, second.4.trans first.4⟩

theorem Tcb.Same.accepts (same : tcb.Same tcb') :
    tcb'.accepts srcIp srcPort dstPort = tcb.accepts srcIp srcPort dstPort := by
  unfold Tcb.accepts
  rw [same.localPort, same.remotePort, same.remoteIp, same.listening]

theorem Tcb.Live.accepts (live : tcb.Live) : tcb.accepts tcb.remoteIp tcb.remotePort tcb.localPort = true := by
  simp [Tcb.accepts, live.1]

theorem Tcb.Live.accepts_iff (live : tcb.Live) : tcb.accepts srcIp srcPort dstPort = true ↔
    tcb.localPort = dstPort ∧ tcb.remotePort = srcPort ∧ tcb.remoteIp = srcIp := by
  simp [Tcb.accepts, live.1, and_assoc]

theorem Tcb.Kept.refl (tcb : Tcb) : tcb.Kept tcb := ⟨.refl tcb, rfl⟩

theorem Tcb.Kept.trans (first : tcb.Kept tcb') (second : tcb'.Kept tcb'') : tcb.Kept tcb'' :=
  ⟨first.toSame.trans second.toSame, second.state.trans first.state⟩

theorem Tcb.countDupack_kept (tcb : Tcb) (seg : Segment) : tcb.Kept (tcb.countDupack seg) := by
  unfold Tcb.countDupack
  dsimp only
  split_ifs <;> exact ⟨⟨rfl, rfl, rfl, rfl⟩, rfl⟩

theorem Tcb.coverSent_kept (tcb : Tcb) (seg : Segment) : tcb.Kept (tcb.coverSent seg).2 := by
  unfold Tcb.coverSent
  dsimp only
  split_ifs <;> exact ⟨⟨rfl, rfl, rfl, rfl⟩, rfl⟩

theorem Tcb.settle_kept (tcb : Tcb) (acked ticks window : Nat) : tcb.Kept (tcb.settle acked ticks window) :=
  ⟨⟨rfl, rfl, rfl, rfl⟩, rfl⟩

theorem Tcb.acknowledged_kept (tcb : Tcb) (ticks : Nat) (seg : Segment) : tcb.Kept (tcb.acknowledged ticks seg) :=
  (tcb.countDupack_kept seg).trans (((tcb.countDupack seg).coverSent_kept seg).trans (Tcb.settle_kept ..))

theorem Tcb.payloadReceived_kept (tcb : Tcb) (srcIp dstIp : Ip) (seg : Segment) :
    tcb.Kept (tcb.payloadReceived srcIp dstIp seg).1 := by
  unfold Tcb.payloadReceived Tcb.takeIn
  split_ifs <;> exact ⟨⟨rfl, rfl, rfl, rfl⟩, rfl⟩

theorem Tcb.receiveEstablished_same (tcb : Tcb) (ticks : Nat) (srcIp dstIp : Ip) (seg : Segment) :
    tcb.Same (tcb.receiveEstablished ticks srcIp dstIp seg).1 ∧
      ((tcb.receiveEstablished ticks srcIp dstIp seg).1.state = tcb.state ∨
        (tcb.receiveEstablished ticks srcIp dstIp seg).1.state = .closeWait) := by
  unfold Tcb.receiveEstablished
  dsimp only
  generalize acked : (if seg.has TCP_FLAG_ACK then tcb.acknowledged ticks seg else tcb) = tcb₁
  have first : tcb.Kept tcb₁ := by
    rw [← acked]
    split_ifs
    · exact tcb.acknowledged_kept ticks seg
    · exact .refl tcb
  generalize took : (if (!seg.payload.isEmpty && seg.has TCP_FLAG_ACK) = true then
    ((tcb₁.payloadReceived srcIp dstIp seg).1, [(tcb₁.payloadReceived srcIp dstIp seg).2]) else (tcb₁, [])) = taken
  have second : tcb₁.Kept taken.1 := by
    rw [← took]
    split_ifs
    · exact tcb₁.payloadReceived_kept srcIp dstIp seg
    · exact .refl tcb₁
  obtain ⟨same, state⟩ := first.trans second
  split_ifs with fin busy
  · exact ⟨⟨same.1, same.2, same.3, same.4⟩, .inr rfl⟩
  · exact ⟨⟨same.1, same.2, same.3, same.4⟩, .inl state⟩
  · exact ⟨same, .inl state⟩

/-- A segment leaves the ends of a block as they are, and opens neither a closed block
    nor a listener. -/
theorem Tcb.receive_same (tcb : Tcb) (ticks : Nat) (srcIp dstIp : Ip) (seg : Segment) :
    tcb.Same (tcb.receive ticks srcIp dstIp seg).1 ∧
      (tcb.state = .closed → (tcb.receive ticks srcIp dstIp seg).1.state = .closed) ∧
      (tcb.state ≠ .listen → (tcb.receive ticks srcIp dstIp seg).1.state ≠ .listen) := by
  unfold Tcb.receive
  cases state : tcb.state with
  | established | closeWait =>
    obtain ⟨same, kept | left⟩ := tcb.receiveEstablished_same ticks srcIp dstIp seg
    · exact ⟨same, by simp, fun _ => by simp [kept, state]⟩
    · exact ⟨same, by simp, fun _ => by simp [left]⟩
  | synSent =>
    unfold Tcb.receiveSynSent
    split_ifs <;> exact ⟨⟨rfl, rfl, rfl, rfl⟩, by simp, by simp [state]⟩
  | synReceived =>
    unfold Tcb.receiveSynReceived Tcb.takeIn
    split_ifs <;> exact ⟨⟨rfl, rfl, rfl, rfl⟩, by simp, by simp [state]⟩
  | finWait1 | finWait2 | closing | lastAck =>
    split_ifs <;> exact ⟨⟨rfl, rfl, rfl, rfl⟩, by simp, by simp [state]⟩
  | timeWait => exact ⟨.refl tcb, by simp, by simp [state]⟩
  | closed => exact ⟨.refl tcb, fun _ => state, by simp [state]⟩
  | listen => exact ⟨.refl tcb, by simp, by simp⟩

end Blocks

/-! ## The table -/

section Table

variable {conns : Conns} {i idx : Fin MAX_CONNS} {tcb new : Tcb} {srcIp : Ip} {srcPort dstPort : Nat}

theorem Conns.lookup_eq_some_iff : conns.lookup srcIp srcPort dstPort = some i ↔
    conns.AcceptsAt i srcIp srcPort dstPort ∧ ∀ k, i < k → ¬ conns.AcceptsAt k srcIp srcPort dstPort := by
  have here : ∀ k, ((conns k).any fun tcb => tcb.accepts srcIp srcPort dstPort) = true ↔
      conns.AcceptsAt k srcIp srcPort dstPort := by
    intro k
    unfold AcceptsAt
    cases conns k with
    | none | some tcb => simp
  unfold lookup
  rw [Lib.Best.last_eq_some_iff (pairwise_lt_finRange MAX_CONNS), here]
  simp only [mem_finRange, true_and, forall_const, ← here, Bool.not_eq_true]

theorem demuxed_iff : Demuxed conns ↔ ∀ i tcb, conns i = some tcb → tcb.Live →
    ∀ k, i < k → ¬ conns.AcceptsAt k tcb.remoteIp tcb.remotePort tcb.localPort := by
  constructor
  · exact fun demuxed i tcb held live => (lookup_eq_some_iff.mp (demuxed.direct i tcb held live)).2
  · intro last
    have direct : ∀ i tcb, conns i = some tcb → tcb.Live →
        conns.lookup tcb.remoteIp tcb.remotePort tcb.localPort = some i := fun i tcb held live =>
      lookup_eq_some_iff.mpr ⟨⟨tcb, held, live.accepts⟩, last i tcb held live⟩
    refine ⟨fun i j tcb tcb' held held' live live' port ip peer => ?_, direct⟩
    have found := direct i tcb held live
    rw [port, ip, peer, direct j tcb' held' live'] at found
    exact (some.inj found).symm

/-- A block may be stored in a slot of the table exactly if it gets its own segments and
    takes none from a connection before it. -/
theorem Demuxed.put_iff (demuxed : Demuxed conns) (idx : Fin MAX_CONNS) (new : Tcb) :
    Demuxed (update conns idx (some new)) ↔
      (new.Live → ∀ k, idx < k → ¬ conns.AcceptsAt k new.remoteIp new.remotePort new.localPort) ∧
      ∀ i tcb, i < idx → conns i = some tcb → tcb.Live →
        new.accepts tcb.remoteIp tcb.remotePort tcb.localPort = false := by
  have away : ∀ k ip p d, k ≠ idx →
      (Conns.AcceptsAt (update conns idx (some new)) k ip p d ↔ conns.AcceptsAt k ip p d) := by
    intro k ip p d apart
    rw [Conns.AcceptsAt, update_of_ne apart, Conns.AcceptsAt]
  rw [demuxed_iff]
  constructor
  · intro last
    refine ⟨fun live k later accepts => ?_, fun i tcb before held live => ?_⟩
    · exact last idx new (update_self ..) live k later ((away k _ _ _ later.ne').mpr accepts)
    · have stored : update conns idx (some new) i = some tcb := by
        rw [update_of_ne before.ne, held]
      by_contra accepts
      exact last i tcb stored live idx before ⟨new, update_self .., Bool.eq_true_of_not_eq_false accepts⟩
  · rintro ⟨own, others⟩ i tcb held live k later
    by_cases this : i = idx
    · subst this
      rw [update_self] at held
      cases held
      rw [away k _ _ _ later.ne']
      exact own live k later
    · rw [update_of_ne this] at held
      by_cases that : k = idx
      · subst that
        rintro ⟨tcb', stored, accepts⟩
        rw [update_self] at stored
        cases stored
        rw [others i tcb later held live] at accepts
        cases accepts
      · rw [away k _ _ _ that]
        exact demuxed_iff.mp demuxed i tcb held live k later

theorem Demuxed.change (demuxed : Demuxed conns) (held : conns idx = some tcb) (same : tcb.Same new)
    (live : new.Live → tcb.Live) : Demuxed (update conns idx (some new)) := by
  refine (demuxed.put_iff idx new).mpr ⟨fun alive => ?_, fun i other before here alive => ?_⟩
  · rw [same.localPort, same.remotePort, same.remoteIp]
    exact demuxed_iff.mp demuxed idx tcb held (live alive)
  · rw [same.accepts]
    by_contra accepts
    exact demuxed_iff.mp demuxed i other here alive idx before
      ⟨tcb, held, Bool.eq_true_of_not_eq_false accepts⟩

theorem ListenersListen.put (listeners : ListenersListen conns) (fits : new.state = .listen → new.listening = true) :
    ListenersListen (update conns idx (some new)) := by
  intro i tcb held state
  by_cases this : i = idx
  · subst this
    rw [update_self] at held
    cases held
    exact fits state
  · rw [update_of_ne this] at held
    exact listeners i tcb held state

theorem Conns.findSlot_free (found : conns.findSlot = some idx) (held : conns idx = some tcb) :
    tcb.state = .closed := by
  rcases or_eq_some_iff.mp found with empty | ⟨_, closed⟩
  · simpa [held] using find?_some empty
  · simpa [held] using find?_some closed

end Table

/-! ## Steps -/

section Steps

variable {conns : Conns} {new tcb : Tcb}

/-- What a step of a run does: it stops the machine and is orderly, or it leads on, and
    keeps the connections apart exactly if it is orderly. -/
def Settles (conns : Conns) (op : TcpOp) : Prop :=
  (op.step conns = none ∧ Orderly conns op) ∨
    ∃ conns', op.step conns = some conns' ∧ ListenersListen conns' ∧ (Demuxed conns' ↔ Orderly conns op)

theorem settles_same {op : TcpOp} (listeners : ListenersListen conns) (demuxed : Demuxed conns)
    (stepped : op.step conns = some conns) (orderly : Orderly conns op) : Settles conns op :=
  .inr ⟨conns, stepped, listeners, iff_of_true demuxed orderly⟩

theorem listen_outcome (conns : Conns) (port : Nat) :
    (conns.listensAt port = none ∧ conns.listen port = (none, conns)) ∨
    ∃ idx, conns.findSlot = some idx ∧ conns.listensAt port = some idx ∧
      conns.listen port = (some idx, update conns idx (some (.listener port))) := by
  unfold Conns.listen Conns.listensAt
  split
  · exact .inl ⟨rfl, rfl⟩
  · cases conns.findSlot with
    | none => exact .inl ⟨rfl, rfl⟩
    | some idx => exact .inr ⟨idx, rfl, rfl, rfl⟩

theorem listen_settles (listeners : ListenersListen conns) (demuxed : Demuxed conns) (port : Nat) :
    Settles conns (.listen port) := by
  rcases listen_outcome conns port with ⟨nowhere, refused⟩ | ⟨idx, -, place, stored⟩
  · refine settles_same listeners demuxed ?_ ?_
    · rw [TcpOp.step, refused]
    · intro idx no
      rw [nowhere] at no
      cases no
  · refine .inr ⟨_, rfl, ?_⟩
    simp only [Orderly, place, stored, some.injEq, forall_eq']
    refine ⟨listeners.put fun _ => rfl, (demuxed.put_iff idx _).trans ?_⟩
    simp only [Tcb.Live, Tcb.accepts, Tcb.listener, Bool.true_eq_false, false_and, false_implies, if_true,
      beq_eq_false_iff_ne, true_and]
    exact forall_congr' fun i => forall_congr' fun tcb => forall_congr' fun _ => forall_congr' fun _ =>
      forall_congr' fun _ => ne_comm

/-- A new connection keeps the others apart exactly if it comes after every block that
    accepts its segments, and no other connection is open between its ends. -/
theorem Demuxed.open_iff (demuxed : Demuxed conns) (idx : Fin MAX_CONNS) (live : new.Live) :
    Demuxed (update conns idx (some new)) ↔
      (∀ k, idx < k → ¬ conns.AcceptsAt k new.remoteIp new.remotePort new.localPort) ∧
      ∀ i tcb, i < idx → conns i = some tcb → tcb.Live →
        ¬ (tcb.localPort = new.localPort ∧ tcb.remotePort = new.remotePort ∧ tcb.remoteIp = new.remoteIp) := by
  rw [demuxed.put_iff]
  refine and_congr ⟨fun own => own live, fun own _ => own⟩ ?_
  refine forall_congr' fun i => forall_congr' fun tcb => forall_congr' fun _ => forall_congr' fun _ =>
    forall_congr' fun _ => ?_
  rw [← Bool.not_eq_true, live.accepts_iff]
  exact not_congr ⟨fun h => ⟨h.1.symm, h.2.1.symm, h.2.2.symm⟩, fun h => ⟨h.1.symm, h.2.1.symm, h.2.2.symm⟩⟩

theorem connect_outcome (conns : Conns) (env : Env) (localPort : Nat) (dstIp : Ip) (dstPort : Nat) :
    (conns.connectsAt env localPort dstIp dstPort = none ∧ (conns.connect env localPort dstIp dstPort = none ∨
      ∃ out, conns.connect env localPort dstIp dstPort = some (none, conns, out))) ∨
    ∃ idx ip out, conns.findSlot = some idx ∧ conns.connectsAt env localPort dstIp dstPort = some idx ∧
      conns.connect env localPort dstIp dstPort = some (some idx, update conns idx
        (some (.opening .synSent ip localPort dstIp dstPort env.isn 0)), out) := by
  unfold connect connectsAt
  by_cases host : env.ifaceIp.getD .zero = .zero ∨ env.ifaceIp.getD .zero = ⟨127, 0, 0, 1⟩
  · simp only [if_pos host]
    cases conns.findSlot <;> exact .inl ⟨trivial, .inr ⟨_, rfl⟩⟩
  · simp only [if_neg host]
    cases conns.findSlot with
    | none => exact .inl ⟨ite_self none, .inr ⟨_, rfl⟩⟩
    | some idx =>
      by_cases sent : env.takes (buildSegment (env.ifaceIp.getD .zero) dstIp localPort dstPort env.isn 0 0x80
        TCP_FLAG_SYN 65535 synOptions) = true
      · simp only [sent, if_true, Bool.true_and, decide_eq_true_eq]
        by_cases counted : env.isn + 1 < 2 ^ 32
        · simp only [if_pos counted]
          exact .inr ⟨_, _, _, rfl, rfl, rfl⟩
        · simp only [if_neg counted]
          exact .inl ⟨trivial, .inl trivial⟩
      · simp only [Bool.eq_false_of_not_eq_true sent, Bool.false_and, Bool.false_eq_true, if_false]
        exact .inl ⟨trivial, .inr ⟨_, rfl⟩⟩

theorem connect_settles (listeners : ListenersListen conns) (demuxed : Demuxed conns) (env : Env) (localPort : Nat)
    (dstIp : Ip) (dstPort : Nat) : Settles conns (.connect env localPort dstIp dstPort) := by
  rcases connect_outcome conns env localPort dstIp dstPort with ⟨nowhere, made⟩ | ⟨idx, ip, out, -, place, stored⟩
  · have orderly : Orderly conns (.connect env localPort dstIp dstPort) := by
      intro idx no
      rw [nowhere] at no
      cases no
    rcases made with panic | ⟨out, refused⟩
    · exact .inl ⟨by rw [TcpOp.step, panic, map_none], orderly⟩
    · exact settles_same listeners demuxed (by rw [TcpOp.step, refused, map_some]) orderly
  · refine .inr ⟨_, by rw [TcpOp.step, stored, map_some], listeners.put (fun no => by cases no), ?_⟩
    simp only [Orderly, place, some.injEq, forall_eq']
    exact demuxed.open_iff idx ⟨rfl, fun no => by cases no⟩

theorem receiveListen_outcome (conns : Conns) (env : Env) (srcIp dstIp : Ip) (seg : Segment) :
    (conns.receiveListen env srcIp dstIp seg = none ∧ conns.opensFor env srcIp dstIp seg = none) ∨
    (∃ ok out, conns.receiveListen env srcIp dstIp seg = some (ok, conns, out) ∧
      conns.opensFor env srcIp dstIp seg = none) ∨
    ∃ child recvNxt ok out, conns.findSlot = some child ∧ conns.opensFor env srcIp dstIp seg = some child ∧
      conns.receiveListen env srcIp dstIp seg = some (ok, update conns child
        (some (.opening .synReceived dstIp seg.dstPort srcIp seg.srcPort env.isn recvNxt)), out) := by
  unfold receiveListen opensFor
  by_cases syn : (seg.has TCP_FLAG_SYN && !seg.has TCP_FLAG_ACK) = true
  · rw [if_pos syn]
    simp only [syn, Bool.true_and]
    cases slot : conns.findSlot with
    | none => exact .inr (.inl ⟨_, _, rfl, by split_ifs <;> rfl⟩)
    | some child =>
      by_cases sent : env.takes (Tcb.reply srcIp dstIp seg env.isn (seqAdvance seg.seq 0 1)
        (TCP_FLAG_SYN ||| TCP_FLAG_ACK) 65535) = true
      · by_cases fits : env.isn + 1 < 2 ^ 32
        · simp only [sent, fits, if_true, decide_true, Bool.and_self]
          exact .inr (.inr ⟨child, _, _, _, rfl, rfl, rfl⟩)
        · simp only [sent, fits, if_true, if_false, decide_false, Bool.and_false, Bool.false_eq_true]
          exact .inl ⟨trivial, trivial⟩
      · simp only [sent, if_false, Bool.false_and, Bool.false_eq_true]
        exact .inr (.inl ⟨_, _, rfl, trivial⟩)
  · rw [if_neg syn]
    simp only [syn, Bool.false_and, Bool.false_eq_true, if_false]
    exact .inr (.inl ⟨_, _, rfl, trivial⟩)

theorem Demuxed.accept_iff (demuxed : Demuxed conns) (listeners : ListenersListen conns) {srcIp dstIp : Ip}
    {seg : Segment} {idx child : Fin MAX_CONNS} (isn recvNxt : Nat)
    (found : conns.lookup srcIp seg.srcPort seg.dstPort = some idx) (held : conns idx = some tcb)
    (state : tcb.state = .listen) (slot : conns.findSlot = some child) :
    Demuxed (update conns child
      (some (.opening .synReceived dstIp seg.dstPort srcIp seg.srcPort isn recvNxt))) ↔ idx < child := by
  obtain ⟨accepts, last⟩ := lookup_eq_some_iff.mp found
  refine (demuxed.open_iff child ⟨rfl, fun no => by cases no⟩).trans ⟨?_, fun before => ⟨?_, ?_⟩⟩
  · rintro ⟨after, _⟩
    rcases lt_trichotomy idx child with before | same | behind
    · exact before
    · rw [findSlot_free slot (same ▸ held)] at state
      cases state
    · exact absurd accepts (after idx behind)
  · exact fun k later => last k (before.trans later)
  · rintro i tcb' _ held' live ⟨port, peer, ip⟩
    -- the segment would have gone to this connection
    have direct := demuxed.direct i tcb' held' live
    rw [port, peer, ip] at direct
    cases found.symm.trans direct
    cases held.symm.trans held'
    exact Bool.false_ne_true (live.1.symm.trans (listeners idx tcb held state))

/-- A segment stops the machine, changes nothing, or changes the block it is for, and is
    orderly then; or a listener opens a block for it. -/
theorem segment_outcome {op : TcpOp} {env : Env} {srcIp dstIp : Ip} {bytes : List UInt8} (conns : Conns)
    (segment : op = .segment env srcIp dstIp bytes) :
    (Orderly conns op ∧ (op.step conns = none ∨ op.step conns = some conns ∨
      ∃ idx tcb new, conns idx = some tcb ∧ tcb.Same new ∧ new.state ≠ .listen ∧ (new.Live → tcb.Live) ∧
        op.step conns = some (update conns idx (some new)))) ∨
    ∃ (seg : Segment) (idx child : _) (tcb : Tcb) (recvNxt : Nat),
      conns.lookup srcIp seg.srcPort seg.dstPort = some idx ∧ conns idx = some tcb ∧
      tcb.state = .listen ∧ conns.findSlot = some child ∧ (Orderly conns op ↔ idx < child) ∧
      op.step conns = some (update conns child
        (some (.opening .synReceived dstIp seg.dstPort srcIp seg.srcPort env.isn recvNxt))) := by
  subst segment
  cases parsed : parseSegment srcIp dstIp bytes with
  | none => exact .inl ⟨by simp [Orderly, parsed], .inr (.inl (by simp [TcpOp.step, handleReceive, parsed]))⟩
  | some seg =>
    have handled : (TcpOp.segment env srcIp dstIp bytes).step conns =
        (conns.receive env srcIp dstIp seg).map (·.2.1) := by
      simp [TcpOp.step, handleReceive, parsed]
    have quiet : (∀ idx tcb child, seg.has TCP_FLAG_RST = false →
        conns.lookup srcIp seg.srcPort seg.dstPort = some idx → conns idx = some tcb → tcb.state = .listen →
        conns.opensFor env srcIp dstIp seg = some child → idx < child) →
        Orderly conns (.segment env srcIp dstIp bytes) := by
      intro orderly seg' idx tcb child same
      cases parsed.symm.trans same
      exact orderly idx tcb child
    cases found : conns.lookup srcIp seg.srcPort seg.dstPort with
    | none => exact .inl ⟨quiet (by simp [found]), .inr (.inl (by simp [handled, receive, found]))⟩
    | some idx =>
      obtain ⟨⟨tcb, held, -⟩, -⟩ := lookup_eq_some_iff.mp found
      by_cases reset : seg.has TCP_FLAG_RST = true
      · refine .inl ⟨quiet (by simp [reset]), .inr (.inr ⟨idx, tcb, { tcb with state := .closed }, held, ?_⟩)⟩
        exact ⟨⟨rfl, rfl, rfl, rfl⟩, (fun no => by cases no), fun live => absurd rfl live.2,
          by simp [handled, receive, found, held, reset]⟩
      · by_cases state : tcb.state = .listen
        · have received : conns.receive env srcIp dstIp seg = conns.receiveListen env srcIp dstIp seg := by
            simp [receive, found, held, reset, state]
          rw [handled, received]
          rcases receiveListen_outcome conns env srcIp dstIp seg with
            ⟨panic, nowhere⟩ | ⟨ok, out, same, nowhere⟩ | ⟨child, recvNxt, ok, out, slot, opens, stored⟩
          · exact .inl ⟨quiet (by simp [nowhere]), .inl (by rw [panic, map_none])⟩
          · exact .inl ⟨quiet (by simp [nowhere]), .inr (.inl (by rw [same, map_some]))⟩
          · refine .inr ⟨seg, idx, child, tcb, recvNxt, found, held, state, slot, ⟨?_, fun before => quiet ?_⟩,
              by rw [stored, map_some]⟩
            · exact fun orderly => orderly seg idx tcb child parsed (Bool.eq_false_of_not_eq_true reset)
                found held state opens
            · intro idx' tcb' child' _ found' _ _ opens'
              cases found.symm.trans found'
              cases opens.symm.trans opens'
              exact before
        · obtain ⟨same, closed, listen⟩ := tcb.receive_same env.ticks srcIp dstIp seg
          refine .inl ⟨quiet fun idx' tcb' child _ found' held' listens => ?_, .inr (.inr ⟨idx, tcb, _, held, same,
            listen state, fun live => ⟨same.listening ▸ live.1, fun no => live.2 (closed no)⟩,
            by simp [handled, receive, found, held, reset, state]⟩)⟩
          cases found.symm.trans found'
          cases held.symm.trans held'
          exact absurd listens state

theorem segment_settles (listeners : ListenersListen conns) (demuxed : Demuxed conns) (env : Env) (srcIp dstIp : Ip)
    (bytes : List UInt8) : Settles conns (.segment env srcIp dstIp bytes) := by
  rcases segment_outcome conns rfl with
    ⟨orderly, panic | same | ⟨idx, tcb, new, held, same, state, live, stored⟩⟩ |
    ⟨seg, idx, child, tcb, recvNxt, found, held, state, slot, orderly, stored⟩
  · exact .inl ⟨panic, orderly⟩
  · exact settles_same listeners demuxed same orderly
  · exact .inr ⟨_, stored, listeners.put fun no => absurd no state,
      iff_of_true (demuxed.change held same live) orderly⟩
  · refine .inr ⟨_, stored, listeners.put (fun no => by cases no), ?_⟩
    exact (demuxed.accept_iff listeners env.isn recvNxt found held state slot).trans orderly.symm

/-- From an empty table, connections are unique and get their segments throughout a run
    exactly if every new block is put in order. -/
theorem demuxed_iff_orderly (run : List TcpOp) :
    Always TcpOp.step Demuxed run (fun _ => none) ↔ Along TcpOp.step Orderly run (fun _ => none) := by
  refine always_iff_along_partial ListenersListen (fun conns op listeners demuxed => ?_)
    (fun _ _ no => by cases no) (demuxed_iff.mpr fun _ _ no => by cases no)
  cases op with
  | listen port => exact listen_settles listeners demuxed port
  | connect env localPort dstIp dstPort => exact connect_settles listeners demuxed env localPort dstIp dstPort
  | segment env srcIp dstIp bytes => exact segment_settles listeners demuxed env srcIp dstIp bytes

variable {conns' : Conns} {i : Fin MAX_CONNS}

def StillAt (i : Fin MAX_CONNS) (tcb : Tcb) (conns : Conns) : Prop := ∃ tcb', conns i = some tcb' ∧ tcb.Same tcb'

theorem step_stillAt {op : TcpOp} (held : conns i = some tcb) (live : tcb.state ≠ .closed)
    (made : op.step conns = some conns') : StillAt i tcb conns' := by
  have still : StillAt i tcb conns := ⟨tcb, held, .refl tcb⟩
  have put : ∀ idx new, (i = idx → tcb.Same new) → StillAt i tcb (update conns idx (some new)) := by
    intro idx new same
    by_cases here : i = idx
    · subst here
      exact ⟨new, update_self .., same rfl⟩
    · exact ⟨tcb, (update_of_ne here ..).trans held, .refl tcb⟩
  -- a new block is put into a slot that is empty or closed
  have fill : ∀ idx new, conns.findSlot = some idx → StillAt i tcb (update conns idx (some new)) := by
    intro idx new free
    refine put idx new fun here => ?_
    subst here
    exact absurd (findSlot_free free held) live
  have change : ∀ idx old new, conns idx = some old → old.Same new → StillAt i tcb (update conns idx (some new)) := by
    intro idx old new stored same
    refine put idx new fun here => ?_
    subst here
    cases held.symm.trans stored
    exact same
  cases op with
  | listen port =>
    rcases listen_outcome conns port with ⟨-, refused⟩ | ⟨idx, slot, -, stored⟩
    · rw [TcpOp.step, refused] at made
      cases made
      exact still
    · rw [TcpOp.step, stored] at made
      cases made
      exact fill idx _ slot
  | connect env localPort dstIp dstPort =>
    rcases connect_outcome conns env localPort dstIp dstPort with
      ⟨-, panic | ⟨out, refused⟩⟩ | ⟨idx, ip, out, slot, -, stored⟩
    · rw [TcpOp.step, panic] at made
      cases made
    · rw [TcpOp.step, refused] at made
      cases made
      exact still
    · rw [TcpOp.step, stored] at made
      cases made
      exact fill idx _ slot
  | segment env srcIp dstIp bytes =>
    rcases segment_outcome conns rfl with
      ⟨-, panic | same | ⟨idx, old, new, stored, same, -, -, changed⟩⟩ | ⟨_, _, child, _, _, -, -, -, slot, -, opened⟩
    · cases panic.symm.trans made
    · cases same.symm.trans made
      exact still
    · cases changed.symm.trans made
      exact change idx old new stored same
    · cases opened.symm.trans made
      exact fill child _ slot

/-- Whatever is opened and arrives, a block stays in its slot, with its ends, until it is closed. -/
theorem connections_stay {run : List TcpOp} (held : conns i = some tcb)
    (live : Along TcpOp.step (fun conns _ => (conns i).any (·.state == .closed) = false) run conns) :
    Always TcpOp.step (StillAt i tcb) run conns := by
  refine live.always _ ?_ (fun _ => id) ⟨tcb, held, .refl tcb⟩
  rintro conns op conns' ⟨tcb', here, same⟩ live made
  obtain ⟨tcb'', there, same'⟩ := step_stillAt here (by simpa [here] using live) made
  exact ⟨tcb'', there, same.trans same'⟩

end Steps

section Sample

def host : Ip := ⟨10, 0, 0, 1⟩
def peer : Ip := ⟨10, 0, 0, 2⟩

def quietNet : Env := ⟨1, 0, some host, fun _ => true⟩

def synToHost : List UInt8 := (buildSegment peer host 1000 80 7 0 0x50 TCP_FLAG_SYN 1024 []).bytes

/-- A connection from port 80 to the peer, then a listener on the port. -/
def connectThenListen : List TcpOp := [.connect quietNet 80 peer 1000, .listen 80]

/-- The state of the block in a slot, if it is one between port 80 and the peer. -/
def stateAt (conns : Conns) (i : Nat) : Option ConnState :=
  if known : i < MAX_CONNS then
    ((conns ⟨i, known⟩).filter fun tcb => tcb.localPort = 80 ∧ tcb.remoteIp = peer ∧ tcb.remotePort = 1000).map
      Tcb.state
  else none

/-- The listener in slot 1 gets the segments of the connection in slot 0, and answers a
    SYN of its peer with a second block between the same ends. -/
theorem listener_takes_over :
    (exec TcpOp.step connectThenListen fun _ => none).map
        (fun conns => (stateAt conns 0, (conns.lookup peer 1000 80).map Fin.val)) = some (some .synSent, some 1) ∧
    (exec TcpOp.step (connectThenListen ++ [.segment quietNet peer host synToHost]) fun _ => none).map
        (fun conns => (stateAt conns 0, stateAt conns 2)) = some (some .synSent, some .synReceived) := by
  decide +kernel

theorem connections_stay_synSent :
    let tcb := Tcb.opening .synSent host 80 peer 1000 1 0
    Always TcpOp.step (StillAt ⟨0, by decide⟩ tcb) [.listen 80, .segment quietNet peer host synToHost]
      (update (fun _ => none) ⟨0, by decide⟩ (some tcb)) :=
  connections_stay (update_self ..) (by decide +kernel)

end Sample

end Zenus.Net
