import Zenus.Fs.CgroupInv

/-! # Histories of the control groups

Groups are created and removed, limits are set while a group is empty, tasks are
attached, moved and detached, and memory is charged and given back, in any order.
-/

namespace Zenus.Fs.CgroupTable

open Lib.Word Lib.Run List Option Nat

inductive CgroupCall where
  | create (name : Str)
  | remove (id : Nat)
  | setPidsMax (id max : Nat)
  | setMemoryMax (id max : Nat)
  | attach (id task : Nat)
  | detach (task : Nat)
  | charge (task bytes : Nat)
  | uncharge (task bytes : Nat)
  deriving DecidableEq

/-- A run ends where the counter of the group numbers overflows. -/
def step (t : CgroupTable) : CgroupCall → Option CgroupTable
  | .create name => (t.create name).map Prod.snd
  | .remove id => some (t.remove id).2
  | .setPidsMax id max => some (t.setPidsMax id max).2
  | .setMemoryMax id max => some (t.setMemoryMax id max).2
  | .attach id task => some (t.attach id task).2
  | .detach task => some (t.detach task).2
  | .charge task bytes => some (t.charge task bytes).2
  | .uncharge task bytes => some (t.uncharge task bytes)

/-- A limit is set only while the group has no members. -/
def LimitsFirst (t : CgroupTable) : CgroupCall → Prop
  | .setPidsMax id _ | .setMemoryMax id _ => ∀ g ∈ t.groups, g.id = id → g.members = []
  | _ => True

instance (t : CgroupTable) : (call : CgroupCall) → Decidable (LimitsFirst t call)
  | .setPidsMax .. | .setMemoryMax .. => inferInstanceAs (Decidable (∀ g ∈ t.groups, _ → _))
  | .create _ | .remove _ | .attach .. | .detach _ | .charge .. | .uncharge .. => .isTrue trivial

/-- Numbers and names belong to one group, the root's among them, and a task is a
    member at most once over all groups. -/
structure Unique (t : CgroupTable) : Prop where
  ids : (CGROUP_ROOT :: t.groups.map Cgroup.id).Nodup
  names : ([SLASH] :: t.groups.map Cgroup.name).Nodup
  tasks : (t.everyone.map Member.task).Nodup

/-- The sum of the charges of a group, as a number. -/
def charges (t : CgroupTable) (id : Nat) : Nat := (((t.members id).getD []).map Member.charged).sum

def Settled (t : CgroupTable) : CgroupCall → Prop
  | .attach id task =>
    (t.attach id task).1 = .ok () →
      (∀ max, (t.attach id task).2.pidsMax id = some max → max ≠ CGROUP_UNLIMITED →
        (t.attach id task).2.pidsCurrent id ≤ max) ∧
      (t.attach id task).2.chargeOf task = t.chargeOf task ∧
      (t.attach id task).2.total = t.total
  | .charge task bytes =>
    ((t.charge task bytes).1 = false → (t.charge task bytes).2 = t) ∧
    ((t.charge task bytes).1 = true → ∀ id max, t.groupOfTask task = some id →
      t.memoryMax id = some max → max ≠ CGROUP_UNLIMITED → t.charges id < WORD →
        (t.charge task bytes).2.memoryCurrent id ≤ max)
  | _ => True

variable {t t' : CgroupTable} {id task bytes c max : Nat}

section

variable (tidy : Tidy t)

include tidy

theorem Tidy.unique : Unique t := by
  refine ⟨nodup_cons.mpr ⟨?_, tidy.ids⟩, tidy.names, tidy.tasks⟩
  intro mem
  obtain ⟨g, held, root⟩ := mem_map.mp mem
  exact ne_of_gt (tidy.numbered g held).1 root

/-! ## Every call keeps the tables tidy -/

theorem Tidy.create {name : Str} {made : Option Nat}
    (created : t.create name = some (made, t')) : Tidy t' := by
  unfold CgroupTable.create at created
  split at created
  · cases created
    exact tidy
  · next valid =>
    split at created
    · cases created
      exact tidy
    · next fresh =>
      split at created
      · cases created
        exact tidy
      · obtain ⟨next, counted, pair⟩ := map_eq_some_iff.mp created
        cases pair
        cases eq_of_checkedAdd counted
        have notSlash : ¬ name = [SLASH] := by
          simp only [Bool.or_eq_true, beq_iff_eq, not_or] at valid
          exact valid.2
        have fresh' : name ∉ t.groups.map Cgroup.name := by
          intro mem
          obtain ⟨g, held, same⟩ := mem_map.mp mem
          exact fresh (any_eq_true.mpr ⟨g, held, by simpa using same⟩)
        refine ⟨?_, ?_, ?_, ?_, ?_, Nat.lt_add_right 1 tidy.started⟩
        · rw [map_append, nodup_append]
          refine ⟨tidy.ids, nodup_singleton _, ?_⟩
          rintro _ mem _ last rfl
          obtain ⟨g, held, same⟩ := mem_map.mp mem
          rw [map_singleton, mem_singleton] at last
          exact Nat.ne_of_lt (tidy.numbered g held).2 (same.trans last)
        · intro g mem
          rcases mem_append.mp mem with old | new
          · exact ⟨(tidy.numbered g old).1, Nat.lt_add_right 1 (tidy.numbered g old).2⟩
          · rw [mem_singleton.mp new]
            exact ⟨tidy.started, lt_succ_self _⟩
        · rw [map_append, ← cons_append, nodup_append]
          refine ⟨tidy.names, nodup_singleton _, ?_⟩
          rintro _ mem _ last rfl
          rw [map_singleton, mem_singleton] at last
          subst last
          rcases mem_cons.mp mem with slash | old
          · exact notSlash slash
          · exact fresh' old
        · simpa [everyone] using tidy.tasks
        · exact forall_mem_append.mpr ⟨tidy.within, forall_mem_singleton.mpr (zero_le _)⟩

theorem Tidy.remove (id : Nat) : Tidy (t.remove id).2 := by
  rcases id_cases t id with rfl | ⟨front, g, back, at'⟩ | ⟨notRoot, absent⟩
  · simpa [CgroupTable.remove] using tidy
  · rw [at'.remove]
    split
    · next none =>
      have sub : (front ++ back).Sublist t.groups := by
        rw [at'.groups]
        exact (List.Sublist.refl front).append (sublist_cons_self g back)
      refine ⟨tidy.ids.sublist (sub.map _), ?_, ?_, ?_, ?_, tidy.started⟩
      · exact fun g' mem => tidy.numbered g' (sub.subset mem)
      · exact tidy.names.sublist ((sub.map _).cons_cons _)
      · simpa [everyone, at'.groups, none] using tidy.tasks
      · exact fun g' mem => tidy.within g' (sub.subset mem)
    · exact tidy
  · simpa [CgroupTable.remove, notRoot, absent] using tidy

theorem Tidy.setLimit {change : Cgroup → Cgroup}
    (kept : ∀ g, (change g).id = g.id ∧ (change g).name = g.name ∧ (change g).members = g.members)
    (unused : ∀ g ∈ t.groups, g.id = id → g.members = []) : Tidy (t.setLimit change id).2 := by
  rcases id_cases t id with rfl | ⟨front, g, back, at'⟩ | ⟨notRoot, absent⟩
  · simpa [CgroupTable.setLimit] using tidy
  · obtain ⟨sameId, sameName, sameMembers⟩ := kept g
    rw [at'.setLimit]
    refine tidy.regroup rfl (by simp [at'.groups, sameId]) (by simp [at'.groups, sameName]) ?_ fun g' mem => ?_
    · simpa [everyone, at'.groups, sameMembers] using tidy.tasks
    · rcases at'.mem_replaced mem with old | rfl
      · exact tidy.within g' old
      · rw [sameMembers, unused g (at'.groups ▸ mem_append_right _ (.head _)) at'.here]
        exact zero_le _
  · simpa [CgroupTable.setLimit, notRoot, absent] using tidy

theorem Tidy.attach (id task : Nat) : Tidy (t.attach id task).2 := by
  rcases attach_cases t id task with ⟨_, eq⟩ | ⟨_, eq⟩ | ⟨_, _, eq⟩ | ⟨known, _, room, eq⟩
  · exact eq ▸ tidy
  · exact eq ▸ tidy
  · exact eq ▸ tidy.detach task
  · exact eq ▸ tidy.move known room

theorem Tidy.charge (task bytes : Nat) : Tidy (t.charge task bytes).2 := by
  unfold CgroupTable.charge
  split
  · exact tidy
  · dsimp only
    split
    · exact tidy
    · exact tidy.changeCharge ..

theorem Tidy.uncharge (task bytes : Nat) : Tidy (t.uncharge task bytes) := by
  unfold CgroupTable.uncharge
  split
  · exact tidy
  · exact tidy.changeCharge ..

end

theorem Tidy.step (t : CgroupTable) (call : CgroupCall) (t' : CgroupTable) (tidy : Tidy t)
    (limits : LimitsFirst t call) (stepped : step t call = some t') : Tidy t' := by
  cases call with
  | create name =>
    obtain ⟨⟨made, left⟩, created, rfl⟩ := map_eq_some_iff.mp stepped
    exact tidy.create created
  | remove id => exact some.inj stepped ▸ tidy.remove id
  | setPidsMax id max | setMemoryMax id max =>
    exact some.inj stepped ▸ tidy.setLimit (fun _ => ⟨rfl, rfl, rfl⟩) limits
  | attach id task => exact some.inj stepped ▸ tidy.attach id task
  | detach task => exact some.inj stepped ▸ tidy.detach task
  | charge task bytes => exact some.inj stepped ▸ tidy.charge task bytes
  | uncharge task bytes => exact some.inj stepped ▸ tidy.uncharge task bytes

/-! ## The account of one task -/

/-- The task is a member of a group and has charged the given bytes to it. -/
structure Account (t : CgroupTable) (task charged : Nat) : Prop where
  tidy : Tidy t
  member : ∃ id ms, t.members id = some ms ∧ ∃ m ∈ ms, m.task = task
  charged : t.chargeOf task = charged

theorem find?_changeCharge (task : Nat) (change : Nat → Nat) (members : List Member) :
    (changeCharge task change members).find? (·.task == task) =
      (members.find? (·.task == task)).map fun m => { m with charged := change m.charged } := by
  induction members with
  | nil => rfl
  | cons m rest ih =>
    by_cases here : (m.task == task) = true
    · simp [changeCharge, here]
    · simp [changeCharge, here, ih]

theorem Account.change (account : Account t task c) (change : Nat → Nat) :
    ∃ id, t.groupOfTask task = some id ∧
      Account (t.changeMembers id (changeCharge task change)) task (change c) := by
  obtain ⟨tidy, ⟨id, ms, held, m, mem, same⟩, rfl⟩ := account
  obtain ⟨before, after, whole, changed⟩ := everyone_changeMembers held
  have early : before.find? (·.task == task) = none := by
    have apart := tidy.tasks
    rw [whole, append_assoc, map_append, nodup_append] at apart
    rw [find?_eq_none]
    intro m' earlier twin
    exact apart.2.2 _ (mem_map_of_mem earlier) _
      (mem_map_of_mem (mem_append_left _ mem)) ((eq_of_beq twin).trans same.symm)
  obtain ⟨found, search⟩ : ∃ found, ms.find? (·.task == task) = some found :=
    isSome_iff_exists.mp (find?_isSome.mpr ⟨m, mem, by simpa using same⟩)
  refine ⟨id, groupOfTask_of_member tidy.tasks held mem same, tidy.changeCharge .., ?_, ?_⟩
  · refine ⟨id, changeCharge task change ms, by rw [(changeMembers_spec t id _).2.2, held, map_some], ?_⟩
    have kept : task ∈ (changeCharge task change ms).map Member.task := by
      rw [task_changeCharge]
      exact mem_map.mpr ⟨m, mem, same⟩
    obtain ⟨m', mem', same'⟩ := mem_map.mp kept
    exact ⟨m', mem', same'⟩
  · simp only [chargeOf, changed, whole, find?_append, early, none_or, find?_changeCharge, search,
      map_some, some_or, getD_some]

theorem Account.charge (account : Account t task c) (small : c + bytes < WORD)
    (charged : t.charge task bytes = (true, t')) : Account t' task (c + bytes) := by
  obtain ⟨id, held, after⟩ := account.change (satAdd · bytes)
  simp only [CgroupTable.charge, held] at charged
  split at charged
  · cases charged
  · cases charged
    rwa [show satAdd c bytes = c + bytes from min_eq_left (by omega)] at after

theorem Account.uncharge (account : Account t task c) (bytes : Nat) :
    Account (t.uncharge task bytes) task (c - bytes) := by
  obtain ⟨id, held, after⟩ := account.change (· - bytes)
  simp only [CgroupTable.uncharge, held]
  exact after

/-! ## What the calls owe -/

theorem pids_within (tidy : Tidy t) (limit : t.pidsMax id = some max)
    (limited : max ≠ CGROUP_UNLIMITED) : t.pidsCurrent id ≤ max := by
  rcases id_cases t id with rfl | ⟨front, g, back, at'⟩ | ⟨notRoot, absent⟩
  · exact absurd (by simpa [pidsMax, CgroupTable.limit] using limit.symm) limited
  · rw [pidsMax, at'.limit] at limit
    rw [pidsCurrent, at'.members, ← some.inj limit]
    exact tidy.within g (at'.groups ▸ mem_append_right _ (.head _))
  · simp [pidsMax, CgroupTable.limit, notRoot, absent] at limit

theorem settled_attach (tidy : Tidy t) (id task : Nat) : Settled t (.attach id task) := by
  intro attached
  refine ⟨fun max => pids_within (tidy.attach id task), ?_⟩
  rcases attach_cases t id task with ⟨_, eq⟩ | ⟨_, eq⟩ | ⟨_, _, eq⟩ | ⟨known, _, _, eq⟩
  · rw [eq] at attached
    simp at attached
  · rw [eq]
    exact ⟨rfl, rfl⟩
  · rw [eq] at attached
    simp at attached
  · rw [eq]
    exact move_charges tidy known

theorem memory_charged (tidy : Tidy t) (held : t.groupOfTask task = some id) (limit : t.memoryMax id = some max)
    (small : t.charges id < WORD) (charged : (t.charge task bytes).1 = true) :
    (t.charge task bytes).2.memoryCurrent id ≤ max := by
  obtain ⟨ms, members⟩ := members_of_groupOfTask tidy held
  have sum : t.memoryCurrent id = (ms.map Member.charged).sum := by
    rw [charges, members] at small
    rw [memoryCurrent, members]
    exact mod_eq_of_lt small
  simp only [CgroupTable.charge, held, limit, getD_some, sum] at charged ⊢
  split at charged
  · simp at charged
  · next fits =>
    rw [if_neg fits, memoryCurrent, (changeMembers_spec t id _).2.2, members]
    have grown := @sum_changeCharge_le task (satAdd · bytes) bytes (fun n => min_le_left _ _) ms
    have modulo := mod_le ((changeCharge task (satAdd · bytes) ms).map Member.charged).sum WORD
    have word := mod_lt ((changeCharge task (satAdd · bytes) ms).map Member.charged).sum
      (show 0 < WORD by decide)
    simp only [map_some, getD_some]
    unfold satAdd CGROUP_UNLIMITED at *
    omega

theorem settled_charge (tidy : Tidy t) (task bytes : Nat) : Settled t (.charge task bytes) := by
  refine ⟨fun refused => ?_, fun charged id max held limit _ small =>
    memory_charged tidy held limit small charged⟩
  rw [charge_refused t refused]

/-- In every state that is reached without changing the limits of a group with members,
    numbers, names and memberships are unique, and the next call, whatever it is, is
    settled. -/
theorem reachable_accounted {calls : List CgroupCall}
    (limits : Along step LimitsFirst calls empty)
    (run : exec step calls empty = some t) : Unique t ∧ ∀ call, Settled t call := by
  have tidy : Tidy t := invariant_along Tidy Tidy.step tidy_empty limits run
  refine ⟨tidy.unique, fun call => ?_⟩
  cases call with
  | attach id task => exact settled_attach tidy id task
  | charge task bytes => exact settled_charge tidy task bytes
  | create | remove | setPidsMax | setMemoryMax | detach | uncharge => trivial

/-- Two groups, the second for one task; a task is charged and moved into it. -/
def oneMove : List CgroupCall :=
  [.create (str "a"), .create (str "b"), .setPidsMax 2 1, .setMemoryMax 1 8192, .attach 1 7,
    .charge 7 4096, .charge 7 8192, .attach 2 7, .uncharge 7 1024, .attach 2 8, .detach 7, .remove 1]

theorem reachable_accounted_oneMove :
    ∃ t, exec step oneMove empty = some t ∧ t.groups.map Cgroup.id = [2] ∧
      Unique t ∧ ∀ call, Settled t call := by
  have limits : Along step LimitsFirst oneMove empty := by decide +kernel
  obtain ⟨t, reached, groups⟩ : ∃ t, exec step oneMove empty = some t ∧ t.groups.map Cgroup.id = [2] :=
    exists_of_any (by decide +kernel)
  exact ⟨t, reached, groups, reachable_accounted limits reached⟩

/-! ## A refused attach -/

theorem groupOfTask_none : t.groupOfTask task = none ↔ ∀ m ∈ t.everyone, ¬(m.task == task) = true := by
  unfold groupOfTask everyone
  split
  · next held =>
    obtain ⟨m, mem, here⟩ := any_eq_true.mp held
    exact ⟨fun no => by simp at no, fun absent => absurd here (absent m (mem_append_left _ mem))⟩
  · next free =>
    simp only [map_eq_none_iff, find?_eq_none, List.any_eq_true, mem_append, mem_flatMap]
    grind

theorem detach_same : (t.detach task).2 = t ↔ t.groupOfTask task = none := by
  rw [groupOfTask_none]
  refine ⟨fun same m mem here => ?_, fun absent => ?_⟩
  · have erased := (detach_spec t task).1
    rw [same] at erased
    exact absurd here (eraseP_eq_self_iff.mp erased.symm m mem)
  · unfold detach
    rw [takeTask_none.mpr fun m mem => absent m (mem_append_left _ mem)]
    cases groups : takeFromGroups task t.groups with
    | none => rfl
    | some result =>
      obtain ⟨-, -, m, mem, here, -⟩ := takeFromGroups_some groups
      exact absurd (beq_iff_eq.mpr here) (absent m (mem_append_right _ mem))

/-- A refused `attach` leaves the table as it was exactly if the group is unknown or the
    task was in no group: the task is out of its old group before the limit is read. -/
theorem attach_refused_kept {refusal : AttachError} (refused : (t.attach id task).1 = .error refusal) :
    (t.attach id task).2 = t ↔ t.contains id = false ∨ t.groupOfTask task = none := by
  rcases attach_cases t id task with ⟨unknown, same⟩ | ⟨-, same⟩ | ⟨known, -, same⟩ | ⟨-, -, -, same⟩ <;>
    rw [same] at refused ⊢ <;> cases refused
  · exact iff_of_true rfl (.inl unknown)
  · simpa [known] using detach_same

/-- Two groups, the second for no task; a task of the first is charged. -/
def closedGroup : List CgroupCall :=
  [.create (str "a"), .create (str "b"), .setPidsMax 2 0, .attach 1 7, .charge 7 4096]

theorem attach_refused_kept_closedGroup :
    ∃ t, exec step closedGroup empty = some t ∧ (t.attach 2 8).2 = t := by
  obtain ⟨t, reached, refused, free⟩ : ∃ t, exec step closedGroup empty = some t ∧
      (t.attach 2 8).1 = .error .pidsLimit ∧ t.groupOfTask 8 = none := exists_of_any (by decide +kernel)
  exact ⟨t, reached, (attach_refused_kept refused).mpr (.inr free)⟩

theorem attach_refused_evicts :
    ∃ t, exec step closedGroup empty = some t ∧ (t.attach 2 7).1 = .error .pidsLimit ∧
      t.members 1 = some [⟨7, 4096⟩] ∧ (t.attach 2 7).2.members 1 = some [] := exists_of_any (by decide +kernel)

end Zenus.Fs.CgroupTable
