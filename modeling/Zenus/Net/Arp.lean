import Zenus.Lib.Run
import Zenus.Net.Tcp

/-! # The ARP cache

The sixteen entries of the cache, written by `add_static` and by the senders of ARP
packets.  Nothing in an entry says where it came from: a sender that finds the cache
full takes the place of another address, static or not, and a static entry that finds
it full is dropped.
-/

namespace Zenus.Net

open Lib.Run Function Option List

abbrev Mac := List UInt8

def ARP_REQUEST : Nat := 1
def ARP_REPLY : Nat := 2
def ARP_CACHE_SIZE : Nat := 16

/-- An entry of the cache is `none` while it is not valid. -/
structure ArpState where
  gateway : Ip
  cache : List (Option (Ip × Mac))

inductive ArpInsert where
  | known
  | learned
  | refused
  | conflict
  deriving DecidableEq, Repr

def classifyInsert (cached : Option Mac) (ip : Ip) (mac : Mac) : ArpInsert :=
  match cached with
  | some existing => if existing = mac then .known else .conflict
  | none => if ip = Ip.zero then .refused else .learned

def arpPacket (srcMac : Mac) (srcIp : Ip) (dstMac : Mac) (dstIp : Ip) (opcode : Nat) : List UInt8 :=
  dstMac ++ srcMac ++ [0x08, 0x06, 0, 1, 0x08, 0x00, 6, 4] ++ be16Bytes opcode ++ srcMac ++
    [srcIp.a, srcIp.b, srcIp.c, srcIp.d] ++ dstMac ++ [dstIp.a, dstIp.b, dstIp.c, dstIp.d]

def ipAt (payload : List UInt8) (i : Nat) : Ip :=
  ⟨payload.getD i 0, payload.getD (i + 1) 0, payload.getD (i + 2) 0, payload.getD (i + 3) 0⟩

/-- The sender of a payload that passes the checks of `handle`. -/
def arpSender (payload : List UInt8) : Option (Ip × Mac) :=
  if payload.length < 28 then none
  else if be16 (payload.getD 0 0) (payload.getD 1 0) ≠ 1 then none
  else if be16 (payload.getD 2 0) (payload.getD 3 0) ≠ 0x0800 then none
  else if payload.getD 4 0 ≠ 6 ∨ payload.getD 5 0 ≠ 4 then none
  else some (ipAt payload 14, payload.extract 8 14)

namespace ArpState

def boot (gateway : Ip) : ArpState := ⟨gateway, List.replicate ARP_CACHE_SIZE none⟩

def arpLookup (s : ArpState) (target : Ip) : Option Mac :=
  s.cache.findSome? fun e => e.bind fun (ip, mac) => if ip = target then some mac else none

def store (s : ArpState) (i : Nat) (ip : Ip) (mac : Mac) : ArpState :=
  { s with cache := s.cache.set i (some (ip, mac)) }

/-- The slot that `add_static` writes: the first that is free or has the address. -/
def staticSlot (s : ArpState) (ip : Ip) : Option Nat := s.cache.findIdx? fun e => e.all fun (ip', _) => ip' = ip

def addStatic (s : ArpState) (ip : Ip) (mac : Mac) : ArpState :=
  match s.staticSlot ip with
  | none => s
  | some i => s.store i ip mac

/-- The slot for a new address: the first free one, or the first after slot zero that does
    not hold the gateway. -/
def learnSlot (s : ArpState) : Option Nat :=
  match s.cache.findIdx? Option.isNone with
  | some i => some i
  | none => ((s.cache.drop 1).findIdx? fun e => e.map Prod.fst != some s.gateway).map (· + 1)

def arpInsert (s : ArpState) (ip : Ip) (mac : Mac) : ArpInsert × ArpState :=
  match classifyInsert (s.arpLookup ip) ip mac with
  | .learned =>
      if ip = s.gateway then (.refused, s)
      else
        match s.learnSlot with
        | some i => (.learned, s.store i ip mac)
        | none => (.conflict, s)
  | verdict => (verdict, s)

def handle (s : ArpState) (payload : List UInt8) (ourIp : Ip) (ourMac : Mac) : Option (List UInt8) × ArpState :=
  match arpSender payload with
  | none => (none, s)
  | some (ip, mac) =>
      (if be16 (payload.getD 6 0) (payload.getD 7 0) = ARP_REQUEST ∧ ipAt payload 24 = ourIp then
        some (arpPacket ourMac ourIp mac ip ARP_REPLY)
      else none, (s.arpInsert ip mac).2)

/-! ## Lookups -/

/-- Entries are filled in order and have different addresses. -/
structure Inv (s : ArpState) : Prop where
  filled : ∀ {i j : Nat} {x}, i < j → s.cache[j]? = some (some x) → s.cache[i]? ≠ some none
  once : ∀ {i j : Nat} {ip mac mac'}, s.cache[i]? = some (some (ip, mac)) → s.cache[j]? = some (some (ip, mac')) →
    i = j

variable {s : ArpState} {ip ip' : Ip} {mac mac' : Mac} {i : Nat} {e : Option (Ip × Mac)}

theorem Inv.lookup_iff (inv : Inv s) :
    s.arpLookup ip = some mac ↔ ∃ i : Nat, s.cache[i]? = some (some (ip, mac)) := by
  have found : ∀ {mac}, s.arpLookup ip = some mac → ∃ i : Nat, s.cache[i]? = some (some (ip, mac)) := by
    intro mac found
    obtain ⟨e, member, bound⟩ := exists_of_findSome?_eq_some found
    obtain ⟨⟨ip', mac'⟩, rfl, same⟩ := bind_eq_some_iff.mp bound
    obtain ⟨rfl, rfl⟩ : ip' = ip ∧ mac' = mac := by simpa using same
    exact getElem?_of_mem member
  refine ⟨found, ?_⟩
  rintro ⟨i, here⟩
  cases first : s.arpLookup ip with
  | none => simpa using findSome?_eq_none_iff.mp first _ (mem_of_getElem? here)
  | some mac' =>
    obtain ⟨j, there⟩ := found first
    cases inv.once there here
    simpa using there.symm.trans here

theorem Inv.store (inv : Inv s) (slot : s.cache[i]? = some e) (before : ∀ j < i, s.cache[j]? ≠ some none)
    (alone : ∀ {j : Nat} {mac}, s.cache[j]? = some (some (ip, mac)) → j = i) (mac : Mac) :
    Inv (s.store i ip mac) ∧ (s.store i ip mac).arpLookup ip = some mac ∧
      ∀ ip' ≠ ip, ∀ mac', (s.store i ip mac).arpLookup ip' = some mac' ↔
        s.arpLookup ip' = some mac' ∧ e.map Prod.fst ≠ some ip' := by
  have read : ∀ j : Nat, (s.store i ip mac).cache[j]? = if j = i then some (some (ip, mac)) else s.cache[j]? := by
    intro j
    rw [ArpState.store, List.getElem?_set]
    split_ifs with here <;> grind
  have after : Inv (s.store i ip mac) := by
    constructor
    · intro j k x less there free
      have filled := @inv.filled j k x less
      grind
    · intro j k ip' mac₁ mac₂ here there
      have once := @inv.once j k ip' mac₁ mac₂
      grind
  refine ⟨after, after.lookup_iff.mpr ⟨i, by rw [read, if_pos rfl]⟩, fun ip' other mac' => ?_⟩
  rw [after.lookup_iff, inv.lookup_iff]
  constructor
  · rintro ⟨j, here⟩
    rw [read] at here
    split_ifs at here with written
    · simp only [some.injEq, Prod.mk.injEq] at here
      exact absurd here.1.symm other
    · refine ⟨⟨j, here⟩, fun displaced => ?_⟩
      obtain ⟨⟨_, mac₁⟩, rfl, rfl⟩ := map_eq_some_iff.mp displaced
      exact written (inv.once here slot)
  · rintro ⟨⟨j, here⟩, stays⟩
    refine ⟨j, ?_⟩
    rw [read, if_neg, here]
    rintro rfl
    cases slot.symm.trans here
    exact stays rfl

theorem Inv.staticSlot (inv : Inv s) (slot : s.staticSlot ip = some i) :
    ∃ e, s.cache[i]? = some e ∧ (∀ j < i, s.cache[j]? ≠ some none) ∧ (∀ ip' ≠ ip, e.map Prod.fst ≠ some ip') ∧
      ∀ {j : Nat} {mac}, s.cache[j]? = some (some (ip, mac)) → j = i := by
  obtain ⟨inside, holds, first⟩ := findIdx?_eq_some_iff_getElem.mp slot
  have here := getElem?_eq_getElem inside
  have passed : ∀ j < i, ∃ ip' mac, s.cache[j]? = some (some (ip', mac)) ∧ ip' ≠ ip := by
    intro j less
    have misses := first j less
    rw [getElem?_eq_getElem (less.trans inside)]
    cases entry : s.cache[j] with
    | none => simp [entry] at misses
    | some x => exact ⟨x.1, x.2, rfl, by simpa [entry] using misses⟩
  generalize s.cache[i] = e at holds here
  refine ⟨e, here, fun j less free => ?_, fun ip' other same => ?_, fun {j mac} there => ?_⟩
  · obtain ⟨ip', mac, entry, -⟩ := passed j less
    simp [entry] at free
  · obtain ⟨x, rfl, rfl⟩ := map_eq_some_iff.mp same
    exact other (by simpa using holds)
  · rcases lt_trichotomy j i with less | same | more
    · obtain ⟨ip', mac', entry, other⟩ := passed j less
      simp only [there, some.injEq, Prod.mk.injEq] at entry
      exact absurd entry.1.symm other
    · exact same
    · cases e with
      | none => exact absurd here (inv.filled more there)
      | some x =>
        obtain rfl : x.1 = ip := by simpa using holds
        exact inv.once there here

theorem learnSlot_some (slot : s.learnSlot = some i) :
    ∃ e, s.cache[i]? = some e ∧ ∀ j < i, s.cache[j]? ≠ some none := by
  unfold learnSlot at slot
  split at slot
  · next k free =>
    cases slot
    obtain ⟨inside, -, first⟩ := findIdx?_eq_some_iff_getElem.mp free
    refine ⟨_, getElem?_eq_getElem inside, fun j less there => ?_⟩
    obtain ⟨_, same⟩ := List.getElem?_eq_some_iff.mp there
    simpa [same] using first j less
  · next full =>
    obtain ⟨k, found, rfl⟩ := map_eq_some_iff.mp slot
    have inside := (findIdx?_eq_some_iff_getElem.mp found).1
    rw [length_drop] at inside
    refine ⟨_, getElem?_eq_getElem (by omega), fun j _ there => ?_⟩
    simpa using findIdx?_eq_none_iff.mp full _ (mem_of_getElem? there)

end ArpState

/-! ## Runs -/

/-- The cache, and what `add_static` was last called with for each address. -/
structure ArpRun where
  state : ArpState
  statics : Ip → Option Mac

inductive ArpAct where
  | addStatic (ip : Ip) (mac : Mac)
  | receive (payload : List UInt8) (ourIp : Ip) (ourMac : Mac)
  deriving DecidableEq, Repr

namespace ArpRun

def boot (gateway : Ip) : ArpRun := ⟨.boot gateway, fun _ => none⟩

def step (r : ArpRun) : ArpAct → Option ArpRun
  | .addStatic ip mac => some ⟨r.state.addStatic ip mac, update r.statics ip (some mac)⟩
  | .receive payload ourIp ourMac => some ⟨(r.state.handle payload ourIp ourMac).2, r.statics⟩

/-- The address that a packet adds to the cache, and its slot. -/
def learns (s : ArpState) (payload : List UInt8) : Option (Nat × Ip × Mac) :=
  (arpSender payload).bind fun (ip, mac) =>
    if classifyInsert (s.arpLookup ip) ip mac = .learned ∧ ip ≠ s.gateway then s.learnSlot.map (·, ip, mac) else none

/-- The condition: `add_static` finds a slot, and a packet displaces no static entry. -/
def spares (r : ArpRun) : ArpAct → Bool
  | .addStatic ip _ => (r.state.staticSlot ip).isSome
  | .receive payload _ _ =>
      (learns r.state payload).all fun (i, _) => (r.state.cache.getD i none).all fun (ip, _) => r.statics ip = none

def Authoritative (r : ArpRun) : Prop := ∀ ip mac, r.statics ip = some mac → r.state.arpLookup ip = some mac

/-- Static entries are found after the step, and an address that is cached before and
    after keeps its hardware address unless it is set. -/
def Good (r : ArpRun) (act : ArpAct) : Prop :=
  ∀ r', r.step act = some r' → r'.Authoritative ∧ ∀ ip old new, (∀ mac, act ≠ .addStatic ip mac) →
    r.state.arpLookup ip = some old → r'.state.arpLookup ip = some new → new = old

variable {r r' : ArpRun} {act : ArpAct} {payload : List UInt8} {ip : Ip} {mac : Mac} {i : Nat}
variable {e : Option (Ip × Mac)}

theorem handle_state (s : ArpState) (payload : List UInt8) (ourIp : Ip) (ourMac : Mac) :
    (s.handle payload ourIp ourMac).2 = ((learns s payload).map fun w => s.store w.1 w.2.1 w.2.2).getD s := by
  unfold ArpState.handle learns
  cases arpSender payload with
  | none => rfl
  | some sender =>
    obtain ⟨ip, mac⟩ := sender
    simp only [bind_some, ArpState.arpInsert]
    cases classifyInsert (s.arpLookup ip) ip mac with
    | learned =>
      by_cases gateway : ip = s.gateway
      · simp [gateway]
      · cases slot : s.learnSlot <;> simp [gateway]
    | _ => rfl

theorem learns_some {s : ArpState} (learned : learns s payload = some (i, ip, mac)) :
    s.learnSlot = some i ∧ s.arpLookup ip = none := by
  obtain ⟨⟨ip', mac'⟩, -, written⟩ := bind_eq_some_iff.mp learned
  dsimp only at written
  split_ifs at written with verdict
  obtain ⟨j, slot, same⟩ := map_eq_some_iff.mp written
  obtain ⟨rfl, rfl, rfl⟩ := same
  refine ⟨slot, eq_none_iff_forall_ne_some.mpr fun old cached => ?_⟩
  simp only [cached, classifyInsert] at verdict
  split_ifs at verdict <;> exact verdict.1.elim

theorem good_of_store (inv : r.state.Inv) (authoritative : r.Authoritative) (act : ArpAct)
    {statics : Ip → Option Mac} (stepped : r.step act = some ⟨r.state.store i ip mac, statics⟩)
    (slot : r.state.cache[i]? = some e)
    (before : ∀ j < i, r.state.cache[j]? ≠ some none)
    (alone : ∀ {j : Nat} {mac}, r.state.cache[j]? = some (some (ip, mac)) → j = i)
    (own : statics ip = some mac ∧ act = .addStatic ip mac ∨ statics ip = none ∧ r.state.arpLookup ip = none)
    (others : ∀ ip' ≠ ip, statics ip' = r.statics ip') :
    (r.state.store i ip mac).Inv ∧
      ((∀ ip' ≠ ip, e.map Prod.fst = some ip' → r.statics ip' = none) ↔ Good r act) := by
  obtain ⟨after, found, kept⟩ := inv.store slot before alone mac
  refine ⟨after, fun free => ?_, fun good ip' other displaced => ?_⟩
  · rintro _ made
    cases stepped.symm.trans made
    refine ⟨fun ip' mac' given => ?_, fun ip' old new unset was now => ?_⟩
    · by_cases same : ip' = ip
      · subst same
        rcases own with own | own <;> simp_all
      · have given : r.statics ip' = some mac' := others ip' same ▸ given
        refine (kept ip' same mac').mpr ⟨authoritative ip' mac' given, fun displaced => ?_⟩
        simp [free ip' same displaced] at given
    · have other : ip' ≠ ip := by
        rintro rfl
        rcases own with own | own
        · exact unset mac own.2
        · simp [own.2] at was
      have now := ((kept ip' other new).mp now).1
      exact some.inj (now.symm.trans was)
  · by_contra static
    obtain ⟨mac', given⟩ := ne_none_iff_exists'.mp static
    exact ((kept ip' other mac').mp ((good _ stepped).1 ip' mac' ((others ip' other).trans given))).2 displaced

theorem judged (inv : r.state.Inv) (authoritative : r.Authoritative) (act : ArpAct) :
    ∃ r', r.step act = some r' ∧ r'.state.Inv ∧ (r.spares act = true ↔ Good r act) := by
  have unchanged : ∀ act, r.step act = some r → Good r act := by
    intro act stepped r' made
    cases stepped.symm.trans made
    exact ⟨authoritative, fun ip old new _ was now => some.inj (now.symm.trans was)⟩
  cases act with
  | addStatic ip mac =>
    refine ⟨_, rfl, ?_⟩
    cases slot : r.state.staticSlot ip with
    | none =>
      simp only [ArpState.addStatic, slot]
      refine ⟨inv, iff_of_false (by simp [spares, slot]) fun good => ?_⟩
      have found := (good _ rfl).1 ip mac (update_self ..)
      simp only [ArpState.addStatic, slot, inv.lookup_iff] at found
      obtain ⟨i, here⟩ := found
      simpa using findIdx?_eq_none_iff.mp slot _ (mem_of_getElem? here)
    | some i =>
      obtain ⟨e, here, before, displaced, alone⟩ := inv.staticSlot slot
      have stepped : r.step (.addStatic ip mac) =
          some ⟨r.state.store i ip mac, update r.statics ip (some mac)⟩ := by
        simp [step, ArpState.addStatic, slot]
      obtain ⟨after, good⟩ := good_of_store inv authoritative _ stepped here before alone
        (.inl ⟨update_self .., rfl⟩) fun ip' other => update_of_ne other ..
      simp only [ArpState.addStatic, slot]
      refine ⟨after, iff_of_true (by simp [spares, slot]) (good.mp fun ip' other same => ?_)⟩
      exact absurd same (displaced ip' other)
  | receive payload ourIp ourMac =>
    refine ⟨_, rfl, ?_⟩
    have state := handle_state r.state payload ourIp ourMac
    cases learned : learns r.state payload with
    | none =>
      simp only [learned, map_none, getD_none] at state
      rw [state]
      exact ⟨inv, iff_of_true (by simp [spares, learned]) (unchanged _ (by rw [step, state]))⟩
    | some written =>
      obtain ⟨i, ip, mac⟩ := written
      simp only [learned, map_some, getD_some] at state
      obtain ⟨slot, absent⟩ := learns_some learned
      obtain ⟨e, here, before⟩ := ArpState.learnSlot_some slot
      have unset : ∀ mac, r.state.arpLookup ip ≠ some mac := by simp [absent]
      have static : r.statics ip = none :=
        eq_none_iff_forall_ne_some.mpr fun mac given => unset mac (authoritative ip mac given)
      have stepped : r.step (.receive payload ourIp ourMac) = some ⟨r.state.store i ip mac, r.statics⟩ := by
        rw [step, state]
      obtain ⟨after, good⟩ := good_of_store inv authoritative _ stepped here before
        (fun there => absurd (inv.lookup_iff.mpr ⟨_, there⟩) (unset _))
        (.inr ⟨static, absent⟩) fun _ _ => rfl
      rw [state]
      refine ⟨after, Iff.trans ?_ good⟩
      have entry : r.state.cache.getD i none = e := by rw [getD_eq_getElem?_getD, here, getD_some]
      simp only [spares, learned, all_some, entry]
      cases e with
      | none => simp
      | some x => grind

theorem inv_boot (gateway : Ip) : (ArpState.boot gateway).Inv := by
  have blank : ∀ {i : Nat} {x}, (ArpState.boot gateway).cache[i]? ≠ some (some x) := by
    intro i x here
    cases eq_of_mem_replicate (mem_of_getElem? here)
  exact ⟨fun _ there => absurd there blank, fun here => absurd here blank⟩

/-- From an empty cache, in every run of `add_static` calls and received packets: static
    entries are authoritative and cached addresses keep their hardware addresses as long
    as, and only as long as, `add_static` finds a slot and no packet displaces a static
    entry. -/
theorem statics_authoritative_iff (gateway : Ip) (acts : List ArpAct) :
    Along step Good acts (boot gateway) ↔ Along step (fun r act => r.spares act = true) acts (boot gateway) := by
  refine Iff.symm (along_congr_under (fun r => r.state.Inv ∧ r.Authoritative) ?_ (fun r act ready _ => ?_)
    ⟨inv_boot gateway, fun _ _ no => by cases no⟩ (along_of_forall (fun _ _ _ => trivial) _))
  · rintro r act r' ready - spared stepped
    obtain ⟨r₁, made, after, same⟩ := judged ready.1 ready.2 act
    cases made.symm.trans stepped
    exact ⟨after, (same.mp spared _ stepped).1⟩
  · obtain ⟨-, -, -, same⟩ := judged ready.1 ready.2 act
    exact same

def packetFrom (ip : Ip) : List UInt8 :=
  [0, 1, 8, 0, 6, 4, 0, 2, 2, 0, 0, 0, 0, 7, ip.a, ip.b, ip.c, ip.d, 0, 0, 0, 0, 0, 0, 0, 0, 0, 0]

def staticMac (last : UInt8) : Mac := [0x52, 0x55, 10, 0, 2, last]

/-- Two static entries, and then packets from fifteen other addresses: the last one takes
    the place of the second entry. -/
theorem static_entry_displaced :
    let acts := [.addStatic ⟨10, 0, 2, 2⟩ (staticMac 2), .addStatic ⟨10, 0, 2, 3⟩ (staticMac 3)] ++
      (List.range 15).map fun i => .receive (packetFrom ⟨10, 0, 3, UInt8.ofNat i⟩) Ip.zero (staticMac 15)
    ((exec step acts (boot ⟨10, 0, 2, 2⟩)).map fun r =>
        (r.statics ⟨10, 0, 2, 3⟩, r.state.arpLookup ⟨10, 0, 2, 3⟩)) = some (some (staticMac 3), none) ∧
      ¬ Along step Good acts (boot ⟨10, 0, 2, 2⟩) := by
  intro acts
  have lost : ((exec step acts (boot ⟨10, 0, 2, 2⟩)).map fun r =>
      (r.statics ⟨10, 0, 2, 3⟩, r.state.arpLookup ⟨10, 0, 2, 3⟩)) = some (some (staticMac 3), none) := by
    decide +kernel
  refine ⟨lost, fun along => ?_⟩
  obtain ⟨r, run, entry⟩ := map_eq_some_iff.mp lost
  obtain ⟨given, absent⟩ := Prod.mk.inj entry
  have kept := invariant_along Authoritative (fun r act r' _ good stepped => (good r' stepped).1)
    (fun _ _ no => by cases no) along run
  exact some_ne_none _ ((kept _ _ given).symm.trans absent)

end ArpRun

end Zenus.Net
