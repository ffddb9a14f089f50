import Zenus.Fs.Cgroup
import Zenus.Lib.Run
import Mathlib.Data.List.Nodup

/-! # The accounts of the control groups

All members, in the order in which a task is looked for, form one list: first those
of the root, then those of the groups.  A task stands in it at most once, and every
operation changes it in one place, so that limits and charges can be followed there.
-/

namespace Zenus.Fs.CgroupTable

open List Option Member

/-- All members of all groups, in the order of the searches. -/
def everyone (t : CgroupTable) : List Member := t.rootMembers ++ t.groups.flatMap Cgroup.members

/-- The bytes a task has charged, wherever it is. -/
def chargeOf (t : CgroupTable) (task : Nat) : Nat :=
  ((t.everyone.find? (·.task == task)).map Member.charged).getD 0

def total (t : CgroupTable) : Nat := (t.everyone.map Member.charged).sum

/-! ## Where a group stands -/

structure Located (t : CgroupTable) (id : Nat) (front : List Cgroup) (g : Cgroup)
    (back : List Cgroup) : Prop where
  groups : t.groups = front ++ g :: back
  here : g.id = id
  before : ∀ g' ∈ front, g'.id ≠ id
  notRoot : id ≠ CGROUP_ROOT

variable {t t' : CgroupTable} {id task : Nat} {front back groups groups' : List Cgroup} {g c g' : Cgroup}

section

variable (at' : Located t id front g back)

include at'

theorem Located.indexOf : t.indexOf id = some front.length := by
  have skipped : front.findIdx? (·.id == id) = none := by
    simpa [findIdx?_eq_none_iff] using at'.before
  rw [CgroupTable.indexOf, at'.groups, findIdx?_append, skipped, findIdx?_cons]
  simp [at'.here]

theorem Located.getElem? : t.groups[front.length]? = some g := by
  simp [at'.groups]

theorem Located.modify (change : Cgroup → Cgroup) :
    t.groups.modify front.length change = front ++ change g :: back := by
  rw [at'.groups, modify_eq_take_cons_drop (by simp)]
  simp

theorem Located.mem_replaced (mem : g' ∈ front ++ c :: back) : g' ∈ t.groups ∨ g' = c := by
  rw [at'.groups]
  simp only [mem_append, mem_cons] at mem ⊢
  rcases mem with first | rfl | last
  · exact .inl (.inl first)
  · exact .inr rfl
  · exact .inl (.inr (.inr last))

theorem Located.members : t.members id = some g.members := by
  simp [CgroupTable.members, at'.notRoot, at'.indexOf, at'.getElem?]

theorem Located.limit (field : Cgroup → Nat) : t.limit field id = some (field g) := by
  simp [CgroupTable.limit, at'.notRoot, at'.indexOf, at'.getElem?]

theorem Located.changeMembers (change : List Member → List Member) :
    t.changeMembers id change =
      { t with groups := front ++ { g with members := change g.members } :: back } := by
  simp [CgroupTable.changeMembers, at'.notRoot, at'.indexOf, at'.modify]

theorem Located.setLimit (change : Cgroup → Cgroup) :
    t.setLimit change id = (true, { t with groups := front ++ change g :: back }) := by
  simp [CgroupTable.setLimit, at'.notRoot, at'.indexOf, at'.modify]

theorem Located.remove :
    t.remove id = if g.members = [] then (true, { t with groups := front ++ back }) else (false, t) := by
  have erased : t.groups.eraseIdx front.length = front ++ back := by
    rw [at'.groups, eraseIdx_append_of_length_le le_rfl, Nat.sub_self]
    rfl
  cases members : g.members with
  | nil => simp [CgroupTable.remove, at'.notRoot, at'.indexOf, at'.getElem?, erased, members]
  | cons m ms => simp [CgroupTable.remove, at'.notRoot, at'.indexOf, at'.getElem?, members]

end

open CgroupTable

theorem id_cases (t : CgroupTable) (id : Nat) :
    id = CGROUP_ROOT ∨ (∃ front g back, Located t id front g back) ∨
      (id ≠ CGROUP_ROOT ∧ t.indexOf id = none) := by
  by_cases root : id = CGROUP_ROOT
  · exact .inl root
  · refine .inr ?_
    cases found : t.groups.find? (·.id == id) with
    | none =>
      refine .inr ⟨root, ?_⟩
      rw [indexOf, findIdx?_eq_none_iff]
      simpa [find?_eq_none] using found
    | some g =>
      obtain ⟨here, front, back, groups, before⟩ := find?_eq_some_iff_append.mp found
      exact .inl ⟨front, g, back, groups, by simpa using here, by simpa using before, root⟩

theorem located_of_contains (known : t.contains id = true) (notRoot : id ≠ CGROUP_ROOT) :
    ∃ front g back, Located t id front g back := by
  rcases id_cases t id with root | located | ⟨_, absent⟩
  · exact absurd root notRoot
  · exact located
  · simp [contains, notRoot, absent] at known

theorem everyone_changeMembers {ms : List Member} (held : t.members id = some ms) :
    ∃ before after, t.everyone = before ++ ms ++ after ∧
      ∀ change, (t.changeMembers id change).everyone = before ++ change ms ++ after := by
  rcases id_cases t id with rfl | ⟨front, g, back, at'⟩ | ⟨notRoot, absent⟩
  · obtain rfl : t.rootMembers = ms := by simpa [members] using held
    exact ⟨[], t.groups.flatMap Cgroup.members, rfl, fun change => by
      simp [changeMembers, everyone]⟩
  · cases at'.members.symm.trans held
    refine ⟨t.rootMembers ++ front.flatMap Cgroup.members, back.flatMap Cgroup.members, ?_, ?_⟩
    · simp [everyone, at'.groups]
    · intro change
      simp [at'.changeMembers, everyone]
  · simp [members, notRoot, absent] at held

theorem everyone_remove (t : CgroupTable) (id : Nat) : (t.remove id).2.everyone = t.everyone := by
  rcases id_cases t id with rfl | ⟨front, g, back, at'⟩ | ⟨notRoot, absent⟩
  · simp [remove]
  · rw [at'.remove]
    split
    · next none => simp [everyone, at'.groups, none]
    · rfl
  · simp [remove, notRoot, absent]

theorem everyone_setLimit {change : Cgroup → Cgroup} (kept : ∀ g, (change g).members = g.members) (id : Nat) :
    (t.setLimit change id).2.everyone = t.everyone := by
  rcases id_cases t id with rfl | ⟨front, g, back, at'⟩ | ⟨notRoot, absent⟩
  · simp [setLimit]
  · rw [at'.setLimit]
    simp [everyone, at'.groups, kept g]
  · simp [setLimit, notRoot, absent]

/-! ## Taking a task out -/

theorem takeTask_none {members : List Member} :
    takeTask task members = none ↔ ∀ m ∈ members, ¬ (m.task == task) = true := by
  rw [takeTask, map_eq_none_iff, find?_eq_none]

theorem takeTask_some {members rest : List Member} {charged : Nat}
    (taken : takeTask task members = some (charged, rest)) :
    ∃ m ∈ members, m.task = task ∧ members.find? (·.task == task) = some m ∧ m.charged = charged ∧
      rest = members.eraseP (·.task == task) := by
  obtain ⟨m, found, pair⟩ := map_eq_some_iff.mp taken
  obtain ⟨charge, left⟩ := Prod.mk.inj pair
  exact ⟨m, mem_of_find?_eq_some found, by simpa using find?_some found, found, charge, left.symm⟩

/-- What one group is after a task was taken out of some group. -/
def Thinned (g g' : Cgroup) : Prop := ∃ rest : List Member, rest.Sublist g.members ∧ g' = { g with members := rest }

theorem Thinned.refl (g : Cgroup) : Thinned g g := ⟨g.members, List.Sublist.refl _, rfl⟩

theorem takeFromGroups_none (taken : takeFromGroups task groups = none) :
    ∀ m ∈ groups.flatMap Cgroup.members, ¬ (m.task == task) = true := by
  induction groups with
  | nil => simp
  | cons g rest ih =>
    rw [takeFromGroups] at taken
    cases here : takeTask task g.members with
    | some result => simp [here] at taken
    | none =>
      simp only [here, map_eq_none_iff] at taken
      intro m mem
      rcases mem_append.mp (flatMap_cons ▸ mem) with first | later
      · exact takeTask_none.mp here m first
      · exact ih taken m later

theorem takeFromGroups_some {charged : Nat} (taken : takeFromGroups task groups = some (charged, groups')) :
    List.Forall₂ Thinned groups groups' ∧
      groups'.flatMap Cgroup.members = (groups.flatMap Cgroup.members).eraseP (·.task == task) ∧
      ∃ m ∈ groups.flatMap Cgroup.members, m.task = task ∧ m.charged = charged ∧
        (groups.flatMap Cgroup.members).find? (·.task == task) = some m := by
  induction groups generalizing groups' with
  | nil => simp [takeFromGroups] at taken
  | cons g rest ih =>
    rw [takeFromGroups] at taken
    cases here : takeTask task g.members with
    | some result =>
      obtain ⟨charge, left⟩ := result
      obtain ⟨m, mem, same, found, rfl, rfl⟩ := takeTask_some here
      simp only [here, some.injEq, Prod.mk.injEq] at taken
      obtain ⟨rfl, rfl⟩ := taken
      refine ⟨.cons ⟨_, eraseP_sublist, rfl⟩ ?_, ?_, m, ?_, same, rfl, ?_⟩
      · exact forall₂_same.mpr fun g _ => .refl g
      · rw [flatMap_cons, flatMap_cons, eraseP_append_left (by simpa using same) _ mem]
      · exact mem_append_left _ mem
      · rw [flatMap_cons, find?_append, found, some_or]
    | none =>
      simp only [here, map_eq_some_iff, Prod.mk.injEq, Prod.exists] at taken
      obtain ⟨_, later, more, rfl, rfl⟩ := taken
      obtain ⟨thinned, erased, m, mem, same, charge, found⟩ := ih more
      refine ⟨.cons (.refl g) thinned, ?_, m, mem_append_right _ mem, same, charge, ?_⟩
      · rw [flatMap_cons, flatMap_cons, eraseP_append_right _ (takeTask_none.mp here), erased]
      · rw [flatMap_cons, find?_append, find?_eq_none.mpr (takeTask_none.mp here), none_or, found]

theorem detach_spec (t : CgroupTable) (task : Nat) :
    (t.detach task).2.everyone = t.everyone.eraseP (·.task == task) ∧ (t.detach task).1 = t.chargeOf task ∧
      List.Forall₂ Thinned t.groups (t.detach task).2.groups ∧
      (t.detach task).2.nextId = t.nextId := by
  have same : List.Forall₂ Thinned t.groups t.groups := forall₂_same.mpr fun g _ => .refl g
  unfold detach chargeOf everyone
  cases root : takeTask task t.rootMembers with
  | some result =>
    obtain ⟨charged, rest⟩ := result
    obtain ⟨m, mem, task', found, rfl, rfl⟩ := takeTask_some root
    refine ⟨?_, ?_, same, rfl⟩
    · exact (eraseP_append_left (by simpa using task') _ mem).symm
    · rw [find?_append, found]
      rfl
  | none =>
    have none := takeTask_none.mp root
    cases groups : takeFromGroups task t.groups with
    | none =>
      have none' := takeFromGroups_none groups
      refine ⟨?_, ?_, same, rfl⟩
      · rw [eraseP_of_forall_not]
        rintro m mem
        exact (mem_append.mp mem).elim (none m) (none' m)
      · rw [find?_append, find?_eq_none.mpr none, find?_eq_none.mpr none']
        rfl
    | some result =>
      obtain ⟨charged, left⟩ := result
      obtain ⟨thinned, erased, m, mem, task', rfl, found⟩ := takeFromGroups_some groups
      refine ⟨?_, ?_, thinned, rfl⟩
      · rw [eraseP_append_right _ none]
        exact congrArg _ erased
      · rw [find?_append, find?_eq_none.mpr none, found]
        rfl

/-! ## The invariant -/

/-- The groups have their own numbers and names, a task is a member at most once, and
    no group holds more tasks than its limit. -/
structure Tidy (t : CgroupTable) : Prop where
  ids : (t.groups.map Cgroup.id).Nodup
  numbered : ∀ g ∈ t.groups, CGROUP_ROOT < g.id ∧ g.id < t.nextId
  names : ([SLASH] :: t.groups.map Cgroup.name).Nodup
  tasks : (t.everyone.map Member.task).Nodup
  within : ∀ g ∈ t.groups, g.members.length ≤ g.pidsMax
  started : CGROUP_ROOT < t.nextId

theorem tidy_empty : Tidy empty where
  ids := nodup_nil
  numbered := by simp [empty]
  names := nodup_singleton _
  tasks := nodup_nil
  within := by simp [empty]
  started := by decide

theorem located_of_mem (tidy : Tidy t) (mem : g ∈ t.groups) : ∃ front back, Located t g.id front g back := by
  obtain ⟨front, back, groups⟩ := append_of_mem mem
  refine ⟨front, back, groups, rfl, ?_, Nat.ne_of_gt (tidy.numbered g mem).1⟩
  have apart := tidy.ids
  rw [groups, map_append, map_cons, nodup_append] at apart
  exact fun g' earlier => apart.2.2 _ (mem_map_of_mem earlier) _ (.head _)

def Refilled (g g' : Cgroup) : Prop := ∃ members, g' = { g with members := members }

theorem refilled_same (groups : List Cgroup) : List.Forall₂ Refilled groups groups :=
  forall₂_same.mpr fun g _ => ⟨g.members, rfl⟩

theorem Located.refilled (at' : Located t id front g back) (members : List Member) :
    List.Forall₂ Refilled t.groups (front ++ { g with members := members } :: back) := by
  rw [at'.groups]
  exact rel_append (refilled_same front) (.cons ⟨members, rfl⟩ (refilled_same back))

theorem map_refilled {β : Type} (field : Cgroup → β) (same : List.Forall₂ Refilled groups groups')
    (kept : ∀ g members, field { g with members := members } = field g) :
    groups'.map field = groups.map field := by
  induction same with
  | nil => rfl
  | cons refilled _ ih =>
    obtain ⟨members, rfl⟩ := refilled
    rw [map_cons, map_cons, ih, kept]

theorem Tidy.regroup (tidy : Tidy t) (next : t'.nextId = t.nextId)
    (ids : t'.groups.map Cgroup.id = t.groups.map Cgroup.id)
    (names : t'.groups.map Cgroup.name = t.groups.map Cgroup.name) (tasks : (t'.everyone.map Member.task).Nodup)
    (within : ∀ g ∈ t'.groups, g.members.length ≤ g.pidsMax) : Tidy t' := by
  refine ⟨ids ▸ tidy.ids, fun g mem => ?_, names ▸ tidy.names, tasks, within, next ▸ tidy.started⟩
  obtain ⟨g₀, mem₀, numbers⟩ := mem_map.mp (ids ▸ mem_map_of_mem mem)
  rw [← numbers, next]
  exact tidy.numbered g₀ mem₀

theorem Tidy.refill (tidy : Tidy t) (next : t'.nextId = t.nextId)
    (same : List.Forall₂ Refilled t.groups t'.groups) (tasks : (t'.everyone.map Member.task).Nodup)
    (within : ∀ g ∈ t'.groups, g.members.length ≤ g.pidsMax) : Tidy t' :=
  tidy.regroup next (map_refilled _ same fun _ _ => rfl) (map_refilled _ same fun _ _ => rfl) tasks within

theorem eraseP_task (task : Nat) {members : List Member} (nodup : (members.map Member.task).Nodup) :
    ∀ m ∈ members.eraseP (·.task == task), m.task ≠ task := by
  induction members with
  | nil => simp
  | cons m rest ih =>
    rw [map_cons, nodup_cons] at nodup
    by_cases here : m.task = task
    · rw [eraseP_cons_of_pos (by simpa using here)]
      rintro m' mem rfl
      exact nodup.1 (here ▸ mem_map_of_mem mem)
    · rw [eraseP_cons_of_neg (by simpa using here)]
      rintro m' (_ | ⟨_, mem⟩)
      · exact here
      · exact ih nodup.2 m' mem

def Single (t : CgroupTable) : Prop := (t.everyone.map Member.task).Nodup

theorem Single.detach (single : Single t) (task : Nat) : Single (t.detach task).2 := by
  rw [Single, (detach_spec t task).1]
  exact single.sublist (eraseP_sublist.map _)

theorem exists_thinned (thinned : List.Forall₂ Thinned groups groups')
    (mem : g' ∈ groups') : ∃ g ∈ groups, Thinned g g' := by
  induction thinned with
  | nil => exact absurd mem not_mem_nil
  | cons first _ ih =>
    rcases mem with _ | ⟨_, later⟩
    · exact ⟨_, .head _, first⟩
    · obtain ⟨g, mem₀, thin⟩ := ih later
      exact ⟨g, .tail _ mem₀, thin⟩

theorem Tidy.detach (tidy : Tidy t) (task : Nat) : Tidy (t.detach task).2 := by
  obtain ⟨-, -, thinned, next⟩ := detach_spec t task
  refine tidy.refill next (thinned.imp fun g g' ⟨rest, _, eq⟩ => ⟨rest, eq⟩) ?_ ?_
  · exact Single.detach tidy.tasks task
  · intro g' mem
    obtain ⟨g, mem₀, rest, sub, rfl⟩ := exists_thinned thinned mem
    exact sub.length_le.trans (tidy.within g mem₀)

theorem members_of_contains (known : t.contains id = true) : ∃ ms, t.members id = some ms := by
  by_cases root : id = CGROUP_ROOT
  · exact ⟨t.rootMembers, by simp [members, root]⟩
  · obtain ⟨front, g, back, at'⟩ := located_of_contains known root
    exact ⟨g.members, at'.members⟩

theorem changeMembers_spec (t : CgroupTable) (id : Nat) (change : List Member → List Member) :
    (t.changeMembers id change).nextId = t.nextId ∧
      List.Forall₂ Refilled t.groups (t.changeMembers id change).groups ∧
      (t.changeMembers id change).members id = (t.members id).map change := by
  rcases id_cases t id with rfl | ⟨front, g, back, at'⟩ | ⟨notRoot, absent⟩
  · refine ⟨?_, ?_, ?_⟩
    · simp [changeMembers]
    · simpa [changeMembers] using refilled_same t.groups
    · simp [changeMembers, members]
  · rw [at'.changeMembers]
    refine ⟨rfl, at'.refilled _, ?_⟩
    have moved : Located { t with groups := front ++ { g with members := change g.members } :: back } id
        front { g with members := change g.members } back := ⟨rfl, at'.here, at'.before, at'.notRoot⟩
    rw [moved.members, at'.members]
    rfl
  · have same : t.changeMembers id change = t := by
      simp [changeMembers, notRoot, absent]
    rw [same]
    exact ⟨rfl, refilled_same _, by simp [members, notRoot, absent]⟩

theorem within_changeMembers (tidy : Tidy t) {change : List Member → List Member}
    (fits : ∀ front back g, Located t id front g back → (change g.members).length ≤ g.pidsMax) :
    ∀ g ∈ (t.changeMembers id change).groups, g.members.length ≤ g.pidsMax := by
  rcases id_cases t id with rfl | ⟨front, g, back, at'⟩ | ⟨notRoot, absent⟩
  · simpa [changeMembers] using tidy.within
  · rw [at'.changeMembers]
    intro g' mem
    rcases at'.mem_replaced mem with old | rfl
    · exact tidy.within g' old
    · exact fits front back g at'
  · simpa [changeMembers, notRoot, absent] using tidy.within

/-! ## Charges -/

theorem task_changeCharge (task : Nat) (change : Nat → Nat) (members : List Member) :
    (changeCharge task change members).map Member.task = members.map Member.task := by
  induction members with
  | nil => rfl
  | cons m rest ih =>
    rw [changeCharge]
    split
    · rfl
    · rw [map_cons, map_cons, ih]

theorem Tidy.changeCharge (tidy : Tidy t) (id task : Nat) (change : Nat → Nat) :
    Tidy (t.changeMembers id (changeCharge task change)) := by
  have length : ∀ members, (Fs.changeCharge task change members).length = members.length := by
    intro members
    rw [← length_map Member.task, task_changeCharge, length_map]
  obtain ⟨next, same, _⟩ := changeMembers_spec t id (Fs.changeCharge task change)
  refine tidy.refill next same ?_ (within_changeMembers tidy ?_)
  · cases held : t.members id with
    | some ms =>
      obtain ⟨before, after, whole, changed⟩ := everyone_changeMembers held
      rw [changed, map_append, map_append, task_changeCharge, ← map_append, ← map_append, ← whole]
      exact tidy.tasks
    | none =>
      rcases id_cases t id with rfl | ⟨front, g, back, at'⟩ | ⟨notRoot, absent⟩
      · simp [CgroupTable.members] at held
      · simp [at'.members] at held
      · simpa [CgroupTable.changeMembers, notRoot, absent] using tidy.tasks
  · intro front back g at'
    rw [length]
    exact tidy.within g (at'.groups ▸ mem_append_right _ (.head _))

theorem sum_changeCharge_le {change : Nat → Nat} {bytes : Nat} (more : ∀ n, change n ≤ n + bytes)
    (members : List Member) :
    ((changeCharge task change members).map charged).sum ≤ (members.map charged).sum + bytes := by
  induction members with
  | nil => simp [changeCharge]
  | cons m rest ih =>
    rw [changeCharge]
    split
    · have := more m.charged
      simp only [map_cons, sum_cons]
      omega
    · simp only [map_cons, sum_cons]
      omega

theorem members_of_groupOfTask (tidy : Tidy t) (held : t.groupOfTask task = some id) :
    ∃ ms, t.members id = some ms := by
  unfold groupOfTask at held
  split at held
  · cases held
    exact ⟨t.rootMembers, by simp [members]⟩
  · obtain ⟨g, found, rfl⟩ := map_eq_some_iff.mp held
    obtain ⟨front, back, at'⟩ := located_of_mem tidy (mem_of_find?_eq_some found)
    exact ⟨g.members, at'.members⟩

/-! ## Moves -/

theorem sum_eraseP (members : List Member) (task : Nat) :
    ((members.eraseP (·.task == task)).map charged).sum +
      ((members.find? (·.task == task)).map charged).getD 0 =
      (members.map charged).sum := by
  induction members with
  | nil => rfl
  | cons m rest ih =>
    by_cases here : m.task = task
    · rw [eraseP_cons_of_pos (by simpa using here), find?_cons_of_pos (by simpa using here)]
      simp [Nat.add_comm]
    · rw [eraseP_cons_of_neg (by simpa using here), find?_cons_of_neg (by simpa using here)]
      simp only [map_cons, sum_cons]
      omega

theorem attach_cases (t : CgroupTable) (id task : Nat) :
    (t.contains id = false ∧ t.attach id task = (.error .noSuchGroup, t)) ∨
    (t.groupOfTask task = some id ∧ t.attach id task = (.ok (), t)) ∨
    (t.contains id = true ∧ t.groupOfTask task ≠ some id ∧
      t.attach id task = (.error .pidsLimit, (t.detach task).2)) ∨
    (t.contains id = true ∧ t.groupOfTask task ≠ some id ∧
      (t.detach task).2.pidsCurrent id < ((t.detach task).2.pidsMax id).getD CGROUP_UNLIMITED ∧
      t.attach id task = (.ok (), (t.detach task).2.changeMembers id (· ++ [⟨task, t.chargeOf task⟩]))) := by
  unfold attach
  rw [← (detach_spec t task).2.1]
  cases known : t.contains id with
  | false => exact .inl ⟨rfl, rfl⟩
  | true =>
    refine .inr ?_
    by_cases member : t.groupOfTask task = some id
    · exact .inl ⟨member, by simp [member]⟩
    · refine .inr ?_
      by_cases full : ((t.detach task).2.pidsMax id).getD CGROUP_UNLIMITED ≤ (t.detach task).2.pidsCurrent id
      · exact .inl ⟨rfl, member, by simp [member, full]⟩
      · exact .inr ⟨rfl, member, Nat.lt_of_not_le full, by simp [member, full]⟩

theorem contains_detach (task : Nat) (known : t.contains id = true) : (t.detach task).2.contains id = true := by
  obtain ⟨_, _, thinned, _⟩ := detach_spec t task
  have ids := map_refilled Cgroup.id (thinned.imp fun g g' ⟨rest, _, eq⟩ => ⟨rest, eq⟩) fun _ _ => rfl
  simp only [contains, indexOf, Bool.or_eq_true, beq_iff_eq, findIdx?_isSome, List.any_eq_true] at known ⊢
  refine known.imp_right ?_
  rintro ⟨g, mem, same⟩
  obtain ⟨g', mem', numbers⟩ := mem_map.mp (ids ▸ mem_map_of_mem mem)
  exact ⟨g', mem', by rw [numbers]; exact same⟩

theorem move_spec (task : Nat) (known : t.contains id = true) :
    ∃ before after ms, t.everyone.eraseP (·.task == task) = before ++ ms ++ after ∧
      ((t.detach task).2.changeMembers id (· ++ [⟨task, t.chargeOf task⟩])).everyone =
        before ++ (ms ++ [⟨task, t.chargeOf task⟩]) ++ after := by
  obtain ⟨ms, held⟩ := members_of_contains (contains_detach task known)
  obtain ⟨before, after, whole, changed⟩ := everyone_changeMembers held
  exact ⟨before, after, ms, (detach_spec t task).1 ▸ whole, changed _⟩

theorem Single.move (single : Single t) (known : t.contains id = true) :
    Single ((t.detach task).2.changeMembers id (· ++ [⟨task, t.chargeOf task⟩])) := by
  obtain ⟨before, after, ms, whole, moved⟩ := move_spec task known
  have rest : Single (t.detach task).2 := single.detach task
  have perm : (before ++ (ms ++ [Member.mk task (t.chargeOf task)]) ++ after).Perm
      (⟨task, t.chargeOf task⟩ :: (before ++ ms ++ after)) := by
    rw [← append_assoc, append_assoc _ _ after]
    exact perm_middle
  rw [Single, (detach_spec t task).1] at rest
  rw [Single, moved, (perm.map Member.task).nodup_iff, map_cons, nodup_cons, ← whole]
  refine ⟨?_, rest⟩
  rintro mem
  obtain ⟨m, mem', same'⟩ := mem_map.mp mem
  exact eraseP_task task single m mem' same'

theorem Single.attach (single : Single t) (id task : Nat) : Single (t.attach id task).2 := by
  rcases attach_cases t id task with ⟨_, eq⟩ | ⟨_, eq⟩ | ⟨_, _, eq⟩ | ⟨known, _, _, eq⟩
  · exact eq ▸ single
  · exact eq ▸ single
  · exact eq ▸ single.detach task
  · exact eq ▸ single.move known

theorem Tidy.move (tidy : Tidy t) (known : t.contains id = true)
    (room : (t.detach task).2.pidsCurrent id < ((t.detach task).2.pidsMax id).getD CGROUP_UNLIMITED) :
    Tidy ((t.detach task).2.changeMembers id (· ++ [⟨task, t.chargeOf task⟩])) := by
  have tidy' := tidy.detach task
  obtain ⟨next, same, _⟩ := changeMembers_spec (t.detach task).2 id (· ++ [⟨task, t.chargeOf task⟩])
  refine tidy'.refill next same (Single.move tidy.tasks known) (within_changeMembers tidy' ?_)
  intro front back g at'
  rw [pidsCurrent, at'.members, CgroupTable.pidsMax, at'.limit] at room
  rw [length_append]
  exact room

theorem groupOfTask_of_member {ms : List Member} {m : Member} (single : Single t)
    (held : t.members id = some ms) (mem : m ∈ ms) (same : m.task = task) : t.groupOfTask task = some id := by
  rcases id_cases t id with rfl | ⟨front, g, back, at'⟩ | ⟨notRoot, absent⟩
  · obtain rfl : t.rootMembers = ms := by simpa [members] using held
    rw [groupOfTask, if_pos (List.any_eq_true.mpr ⟨m, mem, by simpa using same⟩)]
  · cases at'.members.symm.trans held
    have whole : t.everyone = (t.rootMembers ++ front.flatMap Cgroup.members) ++
        (g.members ++ back.flatMap Cgroup.members) := by simp [everyone, at'.groups]
    have apart : ∀ m' ∈ t.rootMembers ++ front.flatMap Cgroup.members, ¬ (m'.task == task) = true := by
      intro m' early twin
      rw [Single, whole, map_append, nodup_append] at single
      exact single.2.2 _ (mem_map_of_mem early) _
        (mem_map_of_mem (mem_append_left _ mem)) ((eq_of_beq twin).trans same.symm)
    have root : ¬ t.rootMembers.any (·.task == task) = true := by
      rw [List.any_eq_true]
      rintro ⟨m', early, twin⟩
      exact apart m' (mem_append_left _ early) twin
    have earlier : front.find? (fun g => g.members.any (·.task == task)) = none := by
      rw [find?_eq_none]
      intro g' early found
      obtain ⟨m', mem', twin⟩ := List.any_eq_true.mp found
      exact apart m' (mem_append_right _ (mem_flatMap.mpr ⟨g', early, mem'⟩)) twin
    have here : g.members.any (·.task == task) = true := List.any_eq_true.mpr ⟨m, mem, by simpa using same⟩
    rw [groupOfTask, if_neg root, at'.groups, find?_append, earlier, none_or]
    simp only [find?_cons, here, map_some, at'.here]
  · simp [members, notRoot, absent] at held

theorem groupOfTask_attach (single : Single t) (attached : (t.attach id task).1 = .ok ()) :
    (t.attach id task).2.groupOfTask task = some id := by
  rcases attach_cases t id task with ⟨_, eq⟩ | ⟨member, eq⟩ | ⟨_, _, eq⟩ | ⟨known, _, _, eq⟩
  · rw [eq] at attached
    exact nomatch attached
  · rw [eq]
    exact member
  · rw [eq] at attached
    exact nomatch attached
  · rw [eq]
    obtain ⟨ms, held⟩ := members_of_contains (contains_detach task known)
    have joined := (changeMembers_spec (t.detach task).2 id (· ++ [⟨task, t.chargeOf task⟩])).2.2
    rw [held] at joined
    exact groupOfTask_of_member (single.move known) joined mem_concat_self rfl

theorem move_charges (tidy : Tidy t) (known : t.contains id = true) :
    let moved := (t.detach task).2.changeMembers id (· ++ [⟨task, t.chargeOf task⟩])
    moved.chargeOf task = t.chargeOf task ∧ moved.total = t.total := by
  obtain ⟨before, after, ms, whole, moved⟩ := move_spec task known
  have fresh := eraseP_task task tidy.tasks
  constructor
  · have absent : (before ++ ms).find? (·.task == task) = none := by
      rw [find?_eq_none]
      intro m mem
      simpa using fresh m (whole ▸ mem_append_left _ mem)
    rw [chargeOf, moved, ← append_assoc, append_assoc _ _ after, find?_append, absent]
    simp
  · rw [total, moved, total, ← sum_eraseP t.everyone task, whole, ← chargeOf]
    simp only [map_append, sum_append, map_cons, map_nil, sum_singleton]
    omega

end Zenus.Fs.CgroupTable
