import Zenus.Mem.AreaMap
import Zenus.Sys.Shm

/-! # The pages of a segment

The loops of `shmat` and `shmdt` over the pages of a segment, as changes of one space: the
first adds pages that were vacant, each with the frame that follows from its place, and the
second clears the pages of a range and gives nothing back.
-/

namespace Zenus.Sys.Shared

open Lib.Word Mem Mem.Machine

variable {m m' m₁ : Machine} {r a cr3 count phys n i : Nat} {mapper : Mapper} {ok : Bool}

/-- The pages from number `a` on show the frames from `phys` on, as far as they could be
    mapped. -/
structure Attaches (m m' : Machine) (r a count phys : Nat) : Prop extends Local m m' r where
  pages : ∀ n, 4096 * n < 2 ^ 47 → pageWord m' r n = pageWord m r n ∨
    (a ≤ n ∧ n < a + count) ∧ pageWord m r n = 0 ∧ pageWord m' r n ≠ 0 ∧
      frameAddr (pageWord m' r n) = pageBase (phys + (n - a) * 0x1000)

/-- The pages from number `a` on are not mapped any more. -/
structure Clears (m m' : Machine) (r a count : Nat) : Prop extends Local m m' r where
  fa : m'.fa = m.fa
  pages : ∀ n, 4096 * n < 2 ^ 47 →
    pageWord m' r n = if a ≤ n ∧ n < a + count then 0 else pageWord m r n

theorem Attaches.refl (tree : Tree m r) : Attaches m m r a count phys := ⟨.refl tree, fun _ _ => .inl rfl⟩

theorem Attaches.longer (attaches : Attaches m m' r a i phys) (shorter : i ≤ count) :
    Attaches m m' r a count phys :=
  ⟨attaches.toLocal, fun n user => (attaches.pages n user).imp_right fun ⟨inside, rest⟩ =>
    ⟨⟨inside.1, by omega⟩, rest⟩⟩

theorem Attaches.next (attaches : Attaches m m₁ (pageBase cr3) a i phys) (user : 4096 * (a + i) < 2 ^ 47)
    (run : mapUserPageRaw mapper m₁ cr3 (4096 * (a + i)) (phys + i * 0x1000) true false = some (ok, m')) :
    Attaches m m' (pageBase cr3) a (i + 1) phys := by
  rcases mapUserPageRaw_cases run with ⟨-, rfl⟩ | ⟨flags, ⟨good, -⟩, frame, walk⟩
  · exact attaches.longer i.le_succ
  · have mapped := attaches.tree.mapped walk good user
    refine ⟨attaches.toLocal.trans mapped.toLocal, fun n inside => ?_⟩
    by_cases here : ok = true ∧ n = a + i
    · obtain ⟨rfl, rfl⟩ := here
      have word : pageWord m' (pageBase cr3) (a + i) = pageBase (phys + i * 0x1000) ||| flags :=
        (mapped.pages _ inside).trans (if_pos ⟨rfl, rfl⟩)
      have vacant : pageWord m₁ (pageBase cr3) (a + i) = 0 := mapped.vacant rfl
      rcases attaches.pages _ inside with same | ⟨outside, -⟩
      · refine .inr ⟨⟨by omega, by omega⟩, same ▸ vacant, ?_, ?_⟩
        · rw [word]
          exact fun zero => present_page _ good (by rw [zero, Nat.zero_and])
        · rw [word, frameAddr, Nat.and_or_distrib_right, good.1, Nat.or_zero, Nat.add_sub_cancel_left]
          exact frame
      · omega
    · have same : pageWord m' (pageBase cr3) n = pageWord m₁ (pageBase cr3) n :=
        (mapped.pages _ inside).trans (if_neg fun both => here ⟨both.1, by have := both.2; omega⟩)
      rw [same]
      exact (attaches.longer i.le_succ).pages n inside

/-- What the loop of `shmat` has done, however it has ended; it goes to its end if there are
    addresses for all frames. -/
theorem attachPages_spec (tree : Tree m (pageBase cr3)) (user : 4096 * (a + count) ≤ 2 ^ 47)
    (run : attachPages mapper cr3 (4096 * a) phys count m = some (ok, m')) :
    Attaches m m' (pageBase cr3) a count phys ∧ (ok = false → ∃ i < count, WORD ≤ phys + i * 0x1000) := by
  have outcome := Lib.Loop.upTo_outcome (P := fun i m' => Attaches m m' (pageBase cr3) a i phys)
    (Q := fun m' => Attaches m m' (pageBase cr3) a count phys ∧ ∃ i < count, WORD ≤ phys + i * 0x1000)
    (fun i inside m₁ m₂ ok before round => ?_) (.refl tree) run
  · cases ok with
    | false => exact ⟨(outcome.2 rfl).1, fun _ => (outcome.2 rfl).2⟩
    | true => exact ⟨outcome.1 rfl, by simp⟩
  · split at round
    · next sum =>
      cases round
      refine ⟨by simp, fun _ => ⟨before.longer inside.le, i, inside, ?_⟩⟩
      unfold checkedAdd at sum
      split_ifs at sum with small
      exact Nat.le_of_not_lt small
    · next frame sum =>
      obtain ⟨⟨ok', m₃⟩, mapped, same⟩ := Option.map_eq_some_iff.mp round
      cases same
      cases eq_of_checkedAdd sum
      rw [show 4096 * a + i * 0x1000 = 4096 * (a + i) by omega] at mapped
      exact ⟨fun _ => before.next (by omega) mapped, by simp⟩

theorem Clears.next (clears : Clears m m₁ (pageBase cr3) a i) (user : 4096 * (a + i) < 2 ^ 47) :
    Clears m (m₁.unmapPageRawKeepFrame cr3 (4096 * (a + i))).2 (pageBase cr3) a (i + 1) := by
  rw [unmapPageRawKeepFrame]
  rcases clears.tree.leafSlot user with ⟨zero, slot⟩ | ⟨t, -, table, slot⟩
  · rw [slot]
    refine ⟨clears.toLocal, clears.fa, fun n inside => ?_⟩
    by_cases here : n = a + i
    · rw [if_pos (by omega), here]
      exact zero
    · rw [clears.pages n inside]
      simp only [show n < a + (i + 1) ↔ n < a + i by omega]
  · rw [slot]
    obtain ⟨change, -, words⟩ := clears.tree.setPage user table (.inl rfl)
    refine ⟨clears.toLocal.trans change, clears.fa, fun n inside => ?_⟩
    have word := words (4096 * n) inside
    rw [← pageWord, ← pageWord, clears.pages n inside] at word
    refine word.trans ?_
    by_cases here : n = a + i
    · rw [if_pos (by omega), if_pos (by omega)]
    · simp only [show n < a + (i + 1) ↔ n < a + i by omega]
      exact if_neg (by omega)

theorem detachPages_spec (tree : Tree m (pageBase cr3)) (user : 4096 * (a + count) ≤ 2 ^ 47) :
    Clears m (detachPages cr3 (4096 * a) count m) (pageBase cr3) a count := by
  induction count with
  | zero => exact ⟨.refl tree, rfl, fun n _ => (if_neg (by omega)).symm⟩
  | succ count ih =>
    have before := ih (by omega)
    rw [detachPages, List.range_succ, List.foldl_append]
    have last := before.next (by omega)
    rwa [show 4096 * (a + count) = 4096 * a + count * 0x1000 by omega] at last

end Zenus.Sys.Shared
