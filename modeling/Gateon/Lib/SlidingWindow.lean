import Mathlib.Data.List.TakeWhile

-- A bounded tail of a list in time order, pruned from the front as the window moves on.
namespace SlidingWindow
open List

variable {α : Type} {time : α → Int} {room : Nat} {cutoff : Int} {whole kept : List α} {x : α}

def lastOf (room : Nat) (l : List α) : List α := l.drop (l.length-room)
def prune (time : α → Int) (cutoff : Int) (l : List α) : List α := l.dropWhile fun x => decide (time x < cutoff)
def recent (time : α → Int) (room : Nat) (cutoff : Int) (l : List α) : List α := lastOf room (l.filter fun x => decide (cutoff ≤ time x))

structure Keeps (time : α → Int) (room : Nat) (cutoff : Int) (whole kept : List α) : Prop where
  sorted : whole.Pairwise fun x y => time x ≤ time y
  tail : ∃ dropped, whole = dropped ++ kept ∧ ((∀ x ∈ dropped, time x < cutoff) ∨ kept.length = room)

theorem Keeps.empty : Keeps time room cutoff [] [] := ⟨.nil,[],rfl,.inl nofun⟩

section
variable (keeps : Keeps time room cutoff whole kept)
include keeps

theorem Keeps.later {next} (on : cutoff ≤ next) : Keeps time room next whole kept := by
  obtain ⟨sorted,dropped,parts,rest⟩ := keeps
  exact ⟨sorted,dropped,parts,rest.imp_left fun old x member => Int.lt_of_lt_of_le (old x member) on⟩

theorem Keeps.old (pos : 0 < room) (old : ∀ x ∈ kept, time x < cutoff) : ∀ x ∈ whole, time x < cutoff := by
  obtain ⟨sorted,dropped,rfl,rest⟩ := keeps
  intro x member
  rcases mem_append.mp member with first | last
  · rcases rest with gone | full
    · exact gone x first
    · obtain ⟨y,held⟩ := exists_mem_of_length_pos (full ▸ pos)
      exact Int.lt_of_le_of_lt ((pairwise_append.mp sorted).2.2 x first y held) (old y held)
  · exact old x last

theorem Keeps.forget (pos : 0 < room) (old : ∀ x ∈ kept, time x < cutoff) :
    Keeps time room cutoff whole [] :=
  ⟨keeps.sorted,whole,(append_nil whole).symm,.inl (keeps.old pos old)⟩

theorem Keeps.not_before (pos : 0 < room) (inside : cutoff ≤ time x)
    (after : ∀ y ∈ kept, time y ≤ time x) : ∀ y ∈ whole, time y ≤ time x := by
  obtain ⟨sorted,dropped,rfl,rest⟩ := keeps
  intro y member
  rcases mem_append.mp member with first | last
  · rcases rest with gone | full
    · exact Int.le_trans (Int.le_of_lt (gone y first)) inside
    · obtain ⟨z,held⟩ := exists_mem_of_length_pos (full ▸ pos)
      exact Int.le_trans ((pairwise_append.mp sorted).2.2 y first z held) (after z held)
  · exact after y last
end

theorem prune_split (cutoff : Int) (sorted : l.Pairwise fun x y => time x ≤ time y) :
    ∃ stale, l = stale ++ prune time cutoff l ∧ (∀ x ∈ stale, time x < cutoff) ∧ ∀ x ∈ prune time cutoff l, cutoff ≤ time x := by
  refine ⟨l.takeWhile fun x => decide (time x < cutoff),takeWhile_append_dropWhile.symm,?_,?_⟩
  · intro x member
    have early := mem_takeWhile_imp member
    exact of_decide_eq_true early
  induction l with
  | nil => exact nofun
  | cons a rest ih =>
    unfold prune
    by_cases early : time a < cutoff
    · rw [dropWhile_cons_of_pos (by simpa using early)]; exact ih sorted.of_cons
    rw [dropWhile_cons_of_neg (by simpa using early)]
    intro x member
    rcases mem_cons.mp member with rfl | later
    · omega
    · have order := rel_of_pairwise_cons sorted later; omega

theorem lastOf_split (room : Nat) (l : List α) : ∃ cut, l = cut ++ lastOf room l ∧ (cut = [] ∨ (lastOf room l).length = room) := by
  refine ⟨l.take (l.length-room),(take_append_drop _ l).symm,?_⟩
  by_cases short : l.length ≤ room
  · left; rw [Nat.sub_eq_zero_of_le short,take_zero]
  · right
    rw [lastOf,length_drop]
    omega

theorem length_lastOf (room : Nat) (l : List α) : (lastOf room l).length ≤ room := by
  rw [lastOf,length_drop]
  omega

theorem lastOf_append (dropped : List α) (full : l.length = room) : lastOf room (dropped ++ l) = l := by
  rw [lastOf,length_append,full,Nat.add_sub_cancel,drop_left]
theorem lastOf_short (short : l.length ≤ room) : lastOf room l = l := by
  rw [lastOf,Nat.sub_eq_zero_of_le short,drop_zero]

variable (keeps : Keeps time room cutoff whole kept)
include keeps

theorem Keeps.recent (short : kept.length ≤ room) (inside : ∀ x ∈ kept, cutoff ≤ time x) :
    kept = recent time room cutoff whole := by
  obtain ⟨_,dropped,rfl,rest⟩ := keeps
  have all : kept.filter (fun x => decide (cutoff ≤ time x)) = kept := by
    apply filter_eq_self.mpr
    intro x member
    exact decide_eq_true (inside x member)
  rw [SlidingWindow.recent,filter_append,all]
  rcases rest with gone | full
  · have none : dropped.filter (fun x => decide (cutoff ≤ time x)) = [] := by
      apply filter_eq_nil_iff.mpr
      intro x member
      have early := gone x member
      simpa using early
    rw [none,nil_append,lastOf_short short]
  · exact (lastOf_append _ full).symm

theorem Keeps.kept_sorted : kept.Pairwise fun x y => time x ≤ time y := by
  obtain ⟨sorted,dropped,rfl,_⟩ := keeps
  exact (pairwise_append.mp sorted).2.1

theorem Keeps.pruned :
    ∃ dropped, whole = dropped ++ prune time cutoff kept ∧ ((∀ x ∈ dropped, time x < cutoff) ∨ (prune time cutoff kept).length = room) := by
  obtain ⟨stale,parts,old,_⟩ := prune_split cutoff keeps.kept_sorted
  obtain ⟨sorted,dropped,whole_,rest⟩ := keeps
  cases stale with
  | nil =>
    rw [nil_append] at parts
    rw [← parts]
    exact ⟨dropped,whole_,rest⟩
  | cons y stale =>
    refine ⟨dropped ++ y :: stale,by rw [append_assoc,← parts]; exact whole_,.inl ?_⟩
    intro z member
    rcases mem_append.mp member with first | second
    · rw [whole_,parts] at sorted
      have early := old y mem_cons_self
      have before := (pairwise_append.mp sorted).2.2 z first y (by simp)
      omega
    · exact old z second

variable (pos : 0 < room) (inside : cutoff ≤ time x) (after : ∀ y ∈ kept, time y ≤ time x)
include pos inside after

theorem Keeps.push : Keeps time room cutoff (whole ++ [x]) (lastOf room (prune time cutoff kept ++ [x])) := by
  refine ⟨?_,?_⟩
  · refine pairwise_append.mpr ⟨keeps.sorted,pairwise_singleton _ x,?_⟩
    intro y member z last
    rw [mem_singleton.mp last]
    exact keeps.not_before pos inside after y member
  obtain ⟨dropped,whole_,rest⟩ := keeps.pruned
  obtain ⟨cut,split,short⟩ := lastOf_split room (prune time cutoff kept ++ [x])
  refine ⟨dropped ++ cut,?_,?_⟩
  · rw [append_assoc,← split,← append_assoc,← whole_]
  rcases short with rfl | full
  · rw [append_nil]
    refine rest.imp_right fun full => ?_
    have size := congrArg List.length split
    have bound := length_lastOf room (prune time cutoff kept ++ [x])
    rw [nil_append] at size
    rw [← size,length_append,full] at bound
    exact absurd bound (Nat.not_succ_le_self room)
  · exact .inr full

theorem Keeps.push_recent :
    lastOf room (prune time cutoff kept ++ [x]) = SlidingWindow.recent time room cutoff (whole ++ [x]) := by
  obtain ⟨_,_,_,fresh⟩ := prune_split cutoff keeps.kept_sorted
  apply (keeps.push pos inside after).recent (length_lastOf ..)
  intro y member
  rcases mem_append.mp (mem_of_mem_drop member) with held | last
  · exact fresh y held
  · rw [mem_singleton.mp last]; exact inside

end SlidingWindow
