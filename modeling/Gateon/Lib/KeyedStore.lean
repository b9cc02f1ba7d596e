import Mathlib.Data.List.Nodup
import Mathlib.Data.List.Perm.Basic

-- A finite table whose rows are found by a key of their own.
namespace KeyedStore
open List

variable {K α : Type} [DecidableEq K] {key : α → K}

structure Store (key : α → K) where
  rows : List α
  distinct : (rows.map key).Nodup

def Store.empty : Store key := ⟨[],nodup_nil⟩
def Store.get (s : Store key) (k : K) : Option α := s.rows.find? fun row => decide (key row = k)
def without (rows : List α) (key : α → K) (k : K) : List α := rows.filter fun row => decide (key row ≠ k)

theorem mem_without {rows : List α} : row ∈ without rows key k ↔ row ∈ rows ∧ key row ≠ k := by
  simp [without]
theorem without_distinct {rows : List α} (distinct : (rows.map key).Nodup) (k : K) : ((without rows key k).map key).Nodup :=
  distinct.sublist (filter_sublist.map key)

def Store.remove (s : Store key) (k : K) : Store key := ⟨without s.rows key k,without_distinct s.distinct k⟩

def Store.put (s : Store key) (row : α) : Store key where
  rows := row :: without s.rows key (key row)
  distinct := by
    refine nodup_cons.mpr ⟨?_,without_distinct s.distinct _⟩
    intro again
    obtain ⟨other,mem,same⟩ := List.mem_map.mp again
    exact (mem_without.mp mem).2 same

variable {s : Store key}

theorem get_eq_some : s.get k = some row ↔ row ∈ s.rows ∧ key row = k := by
  constructor
  · intro found; exact ⟨mem_of_find?_eq_some found,by simpa using find?_some found⟩
  intro ⟨mem,same⟩
  cases found : s.get k with
  | none => simpa [same] using find?_eq_none.mp found row mem
  | some other =>
    have hit : key other = k := by simpa using find?_some found
    have unique := inj_on_of_nodup_map s.distinct (mem_of_find?_eq_some found) mem (hit.trans same.symm)
    rw [unique]

@[simp]
theorem mem_put : row ∈ (s.put new).rows ↔ row = new ∨ row ∈ s.rows ∧ key row ≠ key new := by
  simp [Store.put,mem_without]

@[simp]
theorem mem_remove : row ∈ (s.remove k).rows ↔ row ∈ s.rows ∧ key row ≠ k := mem_without

theorem get_put_same (new : α) : (s.put new).get (key new) = some new := by
  simp [Store.put,Store.get]

theorem get_put_other (s : Store key) (new : α) (apart : k ≠ key new) : (s.put new).get k = s.get k := by
  ext row
  rw [get_eq_some,get_eq_some,mem_put]
  constructor
  · intro ⟨held,same⟩
    rcases held with now | ⟨old,_⟩
    · exact absurd (same.symm.trans (congrArg key now)) apart
    · exact ⟨old,same⟩
  · intro ⟨held,same⟩; exact ⟨.inr ⟨held,same ▸ apart⟩,same⟩

theorem get_remove (found : (s.remove k).get other = some row) : s.get other = some row := by
  obtain ⟨held,same⟩ := get_eq_some.mp found
  exact get_eq_some.mpr ⟨(mem_remove.mp held).1,same⟩

theorem get_eq_none : s.get k = none ↔ ∀ row ∈ s.rows, key row ≠ k := by
  simp [Store.get,find?_eq_none]
theorem get_remove_same : (s.remove k).get k = none :=
  get_eq_none.mpr fun _ held => (mem_remove.mp held).2

theorem get_remove_other (apart : other ≠ k) : (s.remove k).get other = s.get other := by
  ext row
  rw [get_eq_some,get_eq_some,mem_remove]
  exact ⟨fun ⟨⟨held,_⟩,same⟩ => ⟨held,same⟩,fun ⟨held,same⟩ => ⟨⟨held,same ▸ apart⟩,same⟩⟩

theorem length_remove_le (s : Store key) (k : K) : (s.remove k).rows.length ≤ s.rows.length := List.length_filter_le _ _
theorem length_put_le (s : Store key) (new : α) : (s.put new).rows.length ≤ s.rows.length + 1 :=
  Nat.succ_le_succ (length_remove_le s _)

theorem length_remove_held (held : (s.get k).isSome) : (s.remove k).rows.length < s.rows.length := by
  obtain ⟨old,found⟩ := Option.isSome_iff_exists.mp held
  obtain ⟨mem,same⟩ := get_eq_some.mp found
  exact length_filter_lt_length_iff_exists.mpr ⟨old,mem,by simp [same]⟩

theorem length_put_held (new : α) (held : (s.get (key new)).isSome) : (s.put new).rows.length ≤ s.rows.length :=
  length_remove_held held

def Store.filter (s : Store key) (keep : α → Bool) : Store key :=
  ⟨s.rows.filter keep,s.distinct.sublist (filter_sublist.map key)⟩

omit [DecidableEq K] in
@[simp]
theorem mem_filter : row ∈ (s.filter keep).rows ↔ row ∈ s.rows ∧ keep row := List.mem_filter

theorem get_filter (s : Store key) (keep : α → Bool) (k : K) : (s.filter keep).get k = (s.get k).filter keep := by
  ext row
  rw [Option.filter_eq_some_iff,get_eq_some,get_eq_some,mem_filter]
  exact ⟨fun ⟨⟨held,kept⟩,same⟩ => ⟨⟨held,same⟩,kept⟩,fun ⟨⟨held,same⟩,kept⟩ => ⟨⟨held,kept⟩,same⟩⟩

theorem get_of_filter (found : (s.filter keep).get k = some v) : s.get k = some v := by
  rw [get_filter] at found
  exact (Option.filter_eq_some_iff.mp found).1

omit [DecidableEq K] in
theorem length_filter_le (s : Store key) (keep : α → Bool) : (s.filter keep).rows.length ≤ s.rows.length :=
  List.length_filter_le _ _

def Store.load (s : Store key) (rows : List α) : Store key := rows.foldl Store.put s

theorem mem_load (distinct : (rows.map key).Nodup) :
    row ∈ (s.load rows).rows ↔ row ∈ rows ∨ row ∈ s.rows ∧ ∀ new ∈ rows, key row ≠ key new := by
  induction rows generalizing s with
  | nil => simp [Store.load]
  | cons first rest ih =>
    obtain ⟨apart,rest_distinct⟩ := nodup_cons.mp distinct
    have others (new : α) (member : new ∈ rest) : key first ≠ key new :=
      fun same => apart (same ▸ List.mem_map_of_mem member)
    change row ∈ ((s.put first).load rest).rows ↔ _
    rw [ih rest_distinct,mem_put,mem_cons]
    constructor
    · rintro (later | ⟨rfl | ⟨old,differs⟩,unnamed⟩)
      · exact .inl (.inr later)
      · exact .inl (.inl rfl)
      · exact .inr ⟨old,forall_mem_cons.mpr ⟨differs,unnamed⟩⟩
    · rintro ((rfl | later) | ⟨old,unnamed⟩)
      · exact .inr ⟨.inl rfl,others⟩
      · exact .inl later
      · exact .inr ⟨.inr ⟨old,(forall_mem_cons.mp unnamed).1⟩,(forall_mem_cons.mp unnamed).2⟩

theorem rows_perm {a b : Store key} (same : ∀ k, a.get k = b.get k) : a.rows.Perm b.rows := by
  apply (perm_ext_iff_of_nodup a.distinct.of_map b.distinct.of_map).mpr
  intro row
  have found := same (key row)
  constructor <;>
  · intro held; exact (get_eq_some.mp (found ▸ get_eq_some.mpr ⟨held,rfl⟩)).1

theorem order_of_map (same : ys.Perm (xs.map f)) : ∃ zs : List α, zs.Perm xs ∧ zs.map f = ys := by
  have listed : Forall₂ (fun y x => y = f x) (xs.map f) xs := forall₂_map_left_iff.mpr (forall₂_same.mpr fun _ _ => rfl)
  obtain ⟨zs,mapped,perm⟩ := perm_comp_forall₂ same listed
  exact ⟨zs,perm,(forall₂_eq_eq_eq ▸ forall₂_map_right_iff.mpr mapped : ys = zs.map f).symm⟩

theorem foldlM_put {name : β → K} {row : β → Option α} {order : List β} (step : Store key → β → Option (Store key))
    (keeps : ∀ r new, row r = some new → key new = name r) (distinct : (order.map name).Nodup) (out : Store key)
    (absent : ∀ r ∈ order, out.get (name r) = none)
    (each : ∀ r ∈ order, ∀ s : Store key, s.get (name r) = none → step s r = (row r).map s.put) :
    order.foldlM step out = (order.mapM row).map out.load := by
  induction order generalizing out with
  | nil => rfl
  | cons r rest ih =>
    obtain ⟨apart,restDistinct⟩ := nodup_cons.mp distinct
    rw [foldlM_cons,mapM_cons,each r (mem_cons_self ..) out (absent r (mem_cons_self ..))]
    cases found : row r with
    | none => rfl
    | some new =>
      have later : ∀ other ∈ rest, (out.put new).get (name other) = none := by
        intro other member
        rw [get_put_other out new,absent other (mem_cons_of_mem _ member)]
        rw [keeps r new found]
        exact fun same => apart (same ▸ List.mem_map_of_mem member)
      have rested := ih restDistinct (out.put new) later (forall_mem_cons.mp each).2
      change rest.foldlM step (out.put new) = _
      rw [rested]
      cases rest.mapM row <;> rfl

end KeyedStore
