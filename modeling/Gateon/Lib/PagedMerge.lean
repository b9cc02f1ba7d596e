import Mathlib.Data.List.Perm.Basic

-- Lists in one strict order, merged head by head and read page by page.
namespace PagedMerge
open List

variable {α σ C P : Type}

def pick (before : α → α → Bool) : List (α × σ) → Option ((α × σ) × List (α × σ))
  | [] => none
  | x :: rest =>
    match pick before rest with
    | none => some (x,[])
    | some (y,others) => if before y.1 x.1 then some (y,x :: others) else some (x,y :: others)

section
variable {before : α → α → Bool}

theorem pick_none : pick before items = none ↔ items = [] := by
  cases items with
  | nil => simp [pick]
  | cons x rest =>
    simp only [pick,reduceCtorEq,iff_false]
    split
    · simp
    · split <;> simp

theorem pick_perm (picked : pick before items = some (top,others)) : items.Perm (top :: others) := by
  induction items generalizing top others with
  | nil => cases picked
  | cons x rest ih =>
    rw [pick] at picked
    split at picked
    · next empty =>
      cases picked
      rw [pick_none.mp empty]
    · next y left found =>
      have same := ih found
      split at picked
      · cases picked; exact (same.cons x).trans (List.Perm.swap top x left)
      · cases picked; exact same.cons x

theorem pick_first (asymm : ∀ a b, before a b → before b a = false)
    (trans : ∀ a b c, before b a = false → before c b = false → before c a = false)
    (picked : pick before items = some (top,others)) : ∀ o ∈ others, before o.1 top.1 = false := by
  induction items generalizing top others with
  | nil => cases picked
  | cons x rest ih =>
    rw [pick] at picked
    split at picked
    · cases picked; simp
    next y left found =>
    have later := ih found
    split at picked
    · next earlier =>
      cases picked
      simp only [forall_mem_cons]
      exact ⟨asymm top.1 x.1 earlier,later⟩
    · next notEarlier =>
      cases picked
      have first : before y.1 x.1 = false := Bool.eq_false_iff.mpr notEarlier
      simp only [forall_mem_cons]
      exact ⟨first,fun o member => trans x.1 y.1 o.1 first (later o member)⟩

end

theorem head_first {lt : α → α → Prop} (asymm : ∀ a b, lt a b → ¬ lt b a) (sorted : l.Pairwise lt)
    (same : l.Perm (a :: m)) (first : ∀ x ∈ m, lt a x) : ∃ rest, l = a :: rest ∧ rest.Perm m := by
  cases l with
  | nil => exact absurd same.length_eq (by simp)
  | cons h rest =>
    have held : h = a ∨ h ∈ m := mem_cons.mp (same.subset mem_cons_self)
    have begins : h = a := by
      rcases held with first | inM
      · exact first
      · rcases mem_cons.mp (same.symm.subset mem_cons_self) with same | later
        · exact same.symm
        · exact absurd (rel_of_pairwise_cons sorted later) (asymm a h (first h inM))
    subst begins
    exact ⟨rest,rfl,(perm_cons h).mp same⟩

def follow (call : Nat → C → Option (P × Option C)) : Nat → Nat → C → Option (List P)
  | 0,_,_ => none
  | fuel+1,i,cursor =>
    match call i cursor with
    | none => none
    | some (page,none) => some [page]
    | some (page,some next) => (follow call fuel (i+1) next).map (page :: ·)

structure Shown (Stands : C → List α → Prop) (shows : P → List α → Prop) (rest : List α) (page : P) (next : Option C) (taken later : List α) : Prop where
  whole : rest = taken ++ later
  shown : shows page taken
  ended : next = none → later = []
  moved : ∀ c, next = some c → taken ≠ [] ∧ Stands c later

theorem follow_whole {Stands : C → List α → Prop} {shows : P → List α → Prop}
    (each : ∀ i c rest, Stands c rest → ∃ page next taken later, call i c = some (page,next) ∧ Shown Stands shows rest page next taken later)
    (fuel i : Nat) (c : C) (rest : List α) (enough : rest.length < fuel) (stands : Stands c rest) :
    ∃ pages parts, follow call fuel i c = some pages ∧ parts.flatten = rest ∧ List.Forall₂ shows pages parts := by
  induction fuel generalizing i c rest with
  | zero => exact absurd enough (Nat.not_lt_zero _)
  | succ fuel ih =>
    obtain ⟨page,next,taken,later,called,part⟩ := each i c rest stands
    cases next with
    | none =>
      have all : taken = rest := by rw [part.whole,part.ended rfl,append_nil]
      refine ⟨[page],[taken],?_,?_,?_⟩
      · rw [follow,called]
      · simp [all]
      · exact .cons part.shown .nil
    | some cursor =>
      obtain ⟨progress,onward⟩ := part.moved cursor rfl
      have shorter : later.length < fuel := by
        have positive := length_pos_iff.mpr progress
        rw [part.whole,length_append] at enough
        omega
      obtain ⟨pages,parts,followed,flat,shown⟩ := ih (i+1) cursor later shorter onward
      refine ⟨page :: pages,taken :: parts,?_,?_,?_⟩
      · rw [follow,called]; simp [followed]
      · rw [flatten_cons,flat,part.whole]
      · exact .cons part.shown shown

end PagedMerge
