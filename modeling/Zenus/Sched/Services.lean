import Zenus.Lib.Run

/-! # The supervisor of services

A table records the task of each service; `service_supervise` restarts the services
whose task is gone.  It compares with one list of tasks, taken when it starts, so a task
that it creates itself looks gone as well.
-/

namespace Zenus.Sched

open List

inductive ServiceState where
  | stopped
  | running
  | crashed
  | disabled
  deriving DecidableEq

structure Service where
  pid : Nat
  state : ServiceState := .running
  restartCount : Nat := 0
  maxRestarts : Nat := 5
  autoRestart : Bool

/-- The table of services and the ids of the tasks; a new task gets `nextId`. -/
structure Services where
  services : List Service
  tasks : List Nat
  nextId : Nat
  positive : 0 < nextId
  fresh : ∀ id ∈ tasks, id < nextId

/-- Recorded as running, with a task that is not in the list. -/
def Service.gone (list : List Nat) (svc : Service) : Bool :=
  svc.state == .running && svc.pid != 0 && !list.contains svc.pid

def Service.mark (svc : Service) : Service := { svc with pid := 0, state := .crashed }

def Service.restartable (svc : Service) : Bool := svc.autoRestart && svc.restartCount < svc.maxRestarts

namespace Services

def edit (w : Services) (i : Nat) (f : Service → Service) : Services :=
  { w with services := w.services.modify i f }

def createTask (w : Services) : Services where
  services := w.services
  tasks := w.nextId :: w.tasks
  nextId := w.nextId + 1
  positive := w.nextId.succ_pos
  fresh := forall_mem_cons.mpr ⟨Nat.lt_add_one _, fun _ known => Nat.lt_succ_of_lt (w.fresh _ known)⟩

def crashed (list : List Nat) (w : Services) : List Nat :=
  (range w.services.length).filter fun i => w.services[i]?.any (·.gone list)

/-- One turn of the inner loop. -/
def recover (w : Services) (i : Nat) : Services :=
  if w.services[i]?.any (·.restartable) then
    w.createTask.edit i fun svc =>
      { svc with pid := w.nextId, state := .running, restartCount := svc.restartCount + 1 }
  else w.edit i .mark

def superviseLoop (list : List Nat) : (fuel : Nat) → Services → Option Services
  | 0, _ => none
  | fuel + 1, w =>
    if (w.crashed list).isEmpty then some w else superviseLoop list fuel ((w.crashed list).foldl recover w)

def serviceSupervise (fuel : Nat) (w : Services) : Option Services := superviseLoop w.tasks fuel w

/-- Each service that is gone and restartable gets one new task and runs under it. -/
structure RestartsOnce (w w' : Services) : Prop where
  tasks : w'.tasks.length =
    w.tasks.length + (w.services.filter fun svc => svc.gone w.tasks && svc.restartable).length
  running : ∀ (i : Nat) (svc : Service), w.services[i]? = some svc → svc.gone w.tasks → svc.restartable →
    ∃ svc', w'.services[i]? = some svc' ∧ svc'.state = .running ∧ svc'.pid ∈ w'.tasks ∧
      w.nextId ≤ svc'.pid ∧ svc'.restartCount = svc.restartCount + 1

variable {w w' : Services} {list is : List Nat} {i fuel : Nat}

theorem mem_crashed : i ∈ w.crashed list ↔ ∃ svc, w.services[i]? = some svc ∧ svc.gone list = true := by
  rw [crashed, mem_filter, mem_range, Option.any_eq_true]
  exact and_iff_right_of_imp fun ⟨_, found, _⟩ => (List.getElem?_eq_some_iff.mp found).1

theorem crashed_superviseLoop (done : superviseLoop list fuel w = some w') : w'.crashed list = [] := by
  induction fuel generalizing w with
  | zero => cases done
  | succ fuel ih =>
    rw [superviseLoop] at done
    split_ifs at done with none
    · cases done
      exact isEmpty_iff.mp none
    · exact ih done

theorem foldl_recover :
    ∀ {w : Services}, (∀ i ∈ is, w.services[i]?.any (·.restartable) = false) →
      (is.foldl recover w).tasks = w.tasks ∧ ∀ j, (is.foldl recover w).services[j]? =
        w.services[j]?.map fun svc => if j ∈ is then svc.mark else svc := by
  induction is with
  | nil => simp
  | cons i is ih =>
    intro w spent
    have marked : w.recover i = w.edit i .mark := if_neg (by simp [spent i (.head _)])
    obtain ⟨tasks, services⟩ := ih (w := w.recover i) fun j member => by
      have kept := spent j (.tail _ member)
      rw [marked, edit, getElem?_modify]
      cases found : w.services[j]? with
      | none => rfl
      | some svc =>
        rw [found] at kept
        by_cases here : i = j <;> simpa [here, Service.restartable, Service.mark] using kept
    rw [foldl_cons]
    refine ⟨by rw [tasks, marked, edit], fun j => ?_⟩
    rw [services, marked, edit, getElem?_modify]
    cases w.services[j]? with
    | none => rfl
    | some svc => by_cases here : i = j <;> by_cases later : j ∈ is <;> simp [here, later, eq_comm, Service.mark]

/-- A call restarts each service once only if there is none to restart: it goes on until no
    service looks gone, and a new task always does. -/
theorem supervise_once_iff (w : Services) :
    (∃ fuel w', serviceSupervise fuel w = some w' ∧ RestartsOnce w w') ↔
      ∀ svc ∈ w.services, svc.gone w.tasks = true → svc.restartable = false := by
  constructor
  · rintro ⟨fuel, w', done, once⟩ svc member gone
    by_contra due
    obtain ⟨i, found⟩ := mem_iff_getElem?.mp member
    obtain ⟨svc', found', runs, _, new, _⟩ := once.running i svc found gone (by simpa using due)
    have unknown : svc'.pid ∉ w.tasks := fun known => absurd (w.fresh _ known) (Nat.not_lt.mpr new)
    have looks : i ∈ w'.crashed w.tasks := by
      refine mem_crashed.mpr ⟨svc', found', ?_⟩
      have := w.positive
      simp [Service.gone, runs, unknown]
      omega
    rw [crashed_superviseLoop done] at looks
    cases looks
  · intro spent
    obtain ⟨tasks, services⟩ := foldl_recover (w := w) fun i (member : i ∈ w.crashed w.tasks) => by
      obtain ⟨svc, found, gone⟩ := mem_crashed.mp member
      rw [found]
      exact spent svc (mem_of_getElem? found) gone
    set w' := (w.crashed w.tasks).foldl recover w
    have calm : w'.crashed w.tasks = [] := eq_nil_iff_forall_not_mem.mpr fun i member => by
      obtain ⟨svc', found, gone⟩ := mem_crashed.mp member
      rw [services] at found
      obtain ⟨svc, held, rfl⟩ := Option.map_eq_some_iff.mp found
      split_ifs at gone with first
      · cases gone
      · exact first (mem_crashed.mpr ⟨svc, held, gone⟩)
    have none : (w.services.filter fun svc => svc.gone w.tasks && svc.restartable) = [] := by simpa using spent
    refine ⟨2, w', ?_, by rw [tasks, none]; rfl, fun i svc found gone due => ?_⟩
    · rw [serviceSupervise, superviseLoop]
      split_ifs with empty
      · simp [w', isEmpty_iff.mp empty]
      · rw [superviseLoop, calm]
        rfl
    · cases due.symm.trans (spent svc (mem_of_getElem? found) gone)

/-- One service, whose task 1 is gone. -/
def oneGone : Services := ⟨[{ pid := 1, autoRestart := true }], [], 2, by decide, forall_mem_nil _⟩

/-- The restarted task is not in the list either: one call creates five tasks, and the
    service ends as crashed. -/
theorem supervise_many :
    ((serviceSupervise 9 oneGone).map fun w => (w.tasks, w.services.map fun svc => (svc.pid, svc.state))) =
      some ([6, 5, 4, 3, 2], [(0, .crashed)]) := by
  decide

end Services
end Zenus.Sched
