import Mathlib.Data.List.Sort

-- The first match in a sorted list is the best match.
namespace SortedSearch
open List

variable {α : Type} {le : α → α → Prop} {l m : List α}

def Untied (le : α → α → Prop) (l : List α) : Prop := ∀ a ∈ l, ∀ b ∈ l, le a b → le b a → a = b

theorem Untied.subset (untied : Untied le l) (part : ∀ x ∈ m, x ∈ l) : Untied le m :=
  fun a inA b inB => untied a (part a inA) b (part b inB)

def Best (le : α → α → Prop) (p : α → Bool) (l : List α) (x : α) : Prop :=
  x ∈ l ∧ p x ∧ ∀ y ∈ l, p y → le x y

section
variable [DecidableRel le] [Std.Total le] [IsTrans α le]

theorem sorted_eq_sort (untied : Untied le l) (same : m.Perm l) (sorted : m.Pairwise le) : m = l.insertionSort le := by
  have perm := same.trans (perm_insertionSort le l).symm
  refine List.Perm.eq_of_pairwise ?_ sorted (pairwise_insertionSort le l) perm
  intro a b inA inB
  exact untied a (same.mem_iff.mp inA) b ((perm_insertionSort le l).mem_iff.mp inB)

theorem sort_perm (untied : Untied le l) (same : m.Perm l) : m.insertionSort le = l.insertionSort le :=
  sorted_eq_sort untied ((perm_insertionSort le m).trans same) (pairwise_insertionSort le m)

end

theorem found_best [Std.Refl le] (sorted : l.Pairwise le) (found : l.find? p = some x) : Best le p l x := by
  obtain ⟨passes,before,after,rfl,missed⟩ := find?_eq_some_iff_append.mp found
  refine ⟨by simp,passes,?_⟩
  intro y member good
  rcases mem_append.mp member with early | late
  · have fails := missed y early
    simp [good] at fails
  · rcases mem_cons.mp late with rfl | later
    · exact Std.Refl.refl y
    · exact rel_of_pairwise_cons (pairwise_append.mp sorted).2.1 later

theorem find_best [Std.Refl le] (untied : Untied le l) (sorted : l.Pairwise le) : l.find? p = some x ↔ Best le p l x := by
  refine ⟨found_best sorted,fun best => ?_⟩
  obtain ⟨z,found⟩ := Option.isSome_iff_exists.mp (find?_isSome.mpr ⟨x,best.1,best.2.1⟩)
  have other := found_best sorted found
  rw [found,untied z other.1 x best.1 (other.2.2 x best.1 best.2.1) (best.2.2 z other.1 other.2.1)]

theorem find_filter_same (l : List α) (keep p : α → Bool) :
    (l.filter keep).find? p = l.find? p ↔ ∀ x, l.find? p = some x → keep x := by
  constructor
  · intro same x found
    rw [← same] at found
    exact (List.mem_filter.mp (mem_of_find?_eq_some found)).2
  intro kept
  induction l with
  | nil => rfl
  | cons a rest ih =>
    cases passes : p a with
    | true => have stays := kept a (by simp [passes]); simp [stays,passes]
    | false =>
      have later := ih fun x found => kept x (by simpa [passes] using found)
      cases stays : keep a <;> simp [stays,passes,later]

end SortedSearch
