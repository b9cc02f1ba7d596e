import Mathlib.Data.List.Induction

-- A trie over segmented keys whose lookups are computed on the way down.
namespace SegmentTrie
open List

variable {K E : Type}

structure Slots (E : Type) where
  exact : List E
  below : List E
  allBelow : List E
  allExact : List E

def Slots.empty : Slots E := ⟨[],[],[],[]⟩

inductive Trie (K E : Type) where
  | node (children : K → Option (Trie K E)) (slots : Slots E)

def Trie.slots : Trie K E → Slots E
  | .node _ slots => slots
def Trie.child : Trie K E → K → Option (Trie K E)
  | .node children _,k => children k
def Trie.empty : Trie K E := .node (fun _ => none) .empty

structure Entry (K E : Type) where
  key : List K
  covers : Bool
  item : E

def Entry.Sees (e : Entry K E) (key : List K) : Prop :=
  if e.covers then e.key <+: key else e.key = key

instance [DecidableEq K] (e : Entry K E) (key : List K) : Decidable (e.Sees key) :=
  inferInstanceAs (Decidable (if e.covers then e.key <+: key else e.key = key))

def Slots.add (s : Slots E) (covers : Bool) (item : E) : Slots E :=
  if covers then { s with below := s.below ++ [item] } else { s with exact := s.exact ++ [item] }

def Trie.insertAt [DecidableEq K] (covers : Bool) (item : E) : List K → Trie K E → Trie K E
  | [],.node children slots => .node children (slots.add covers item)
  | k :: ks,.node children slots =>
    .node (fun j => if j = k then some (insertAt covers item ks ((children k).getD .empty)) else children j) slots

def Trie.insert [DecidableEq K] (t : Trie K E) (e : Entry K E) : Trie K E :=
  t.insertAt e.covers e.item e.key

-- `arrange` puts each list in the order lookups answer in.
mutual
def Trie.flatten (arrange : List E → List E) (inherited : List E) : Trie K E → Trie K E
  | .node children slots =>
    let allBelow := arrange (inherited ++ slots.below)
    .node (fun k => flattenChild arrange allBelow (children k))
      { slots with allBelow := allBelow, allExact := arrange (allBelow ++ slots.exact) }
def flattenChild (arrange : List E → List E) (inherited : List E) : Option (Trie K E) → Option (Trie K E)
  | none => none
  | some t => some (t.flatten arrange inherited)
end

def Trie.lookup : Trie K E → List K → List E
  | .node _ slots,[] => slots.allExact
  | .node children slots,k :: ks => match children k with
    | none => slots.allBelow
    | some t => t.lookup ks

def Trie.gather (inherited : List E) : Trie K E → List K → List E
  | .node _ slots,[] => inherited ++ slots.below ++ slots.exact
  | .node children slots,k :: ks => match children k with
    | none => inherited ++ slots.below
    | some t => t.gather (inherited ++ slots.below) ks

variable (inherited : List E)

theorem gather_inherited (t : Trie K E) (key : List K) : t.gather inherited key = inherited ++ t.gather [] key := by
  induction key generalizing t inherited with
  | nil => cases t; simp [Trie.gather]
  | cons k ks ih =>
    cases t with
    | node children slots =>
      cases child : children k with
      | none => simp [Trie.gather,child]
      | some t => simp only [Trie.gather,child,nil_append,ih (inherited ++ slots.below),ih slots.below,
          append_assoc]

theorem gather_empty (key : List K) : (Trie.empty : Trie K E).gather inherited key = inherited := by
  cases key <;> simp [Trie.gather,Trie.empty,Slots.empty]

-- Only the members of a list are kept, not their order.
theorem lookup_flatten (arranged : ∀ l, (arrange l).Perm l) (inherited : List E) (t : Trie K E) (key : List K) :
    ((t.flatten arrange inherited).lookup key).Perm (t.gather inherited key) := by
  induction key generalizing t inherited with
  | nil =>
    cases t with
    | node children slots =>
      exact (arranged _).trans ((arranged _).append_right _)
  | cons k ks ih =>
    cases t with
    | node children slots =>
      cases child : children k with
      | none => simpa [Trie.flatten,Trie.lookup,Trie.gather,flattenChild,child] using arranged _
      | some t =>
        have below := ih (arrange (inherited ++ slots.below)) t
        rw [gather_inherited] at below
        simp only [Trie.flatten,Trie.lookup,Trie.gather,flattenChild,child]
        rw [gather_inherited]
        exact below.trans ((arranged _).append_right _)

theorem lookup_arranged (arrange : List E → List E) (inherited : List E) (t : Trie K E) (key : List K) :
    ∃ l, (t.flatten arrange inherited).lookup key = arrange l := by
  induction key generalizing t inherited with
  | nil => cases t; exact ⟨_,rfl⟩
  | cons k ks ih =>
    cases t with
    | node children slots =>
      cases child : children k with
      | none => exact ⟨_,by simp only [Trie.flatten,Trie.lookup,flattenChild,child]; rfl⟩
      | some t =>
        obtain ⟨l,found⟩ := ih (arrange (inherited ++ slots.below)) t
        exact ⟨l,by simpa [Trie.flatten,Trie.lookup,flattenChild,child] using found⟩

def Entry.seenFrom [DecidableEq K] (e : Entry K E) (key : List K) : List E :=
  if e.Sees key then [e.item] else []

theorem gather_add (children : K → Option (Trie K E)) (slots : Slots E) (covers : Bool) (item : E) [DecidableEq K] (key : List K) :
    (Trie.gather inherited (.node children (slots.add covers item)) key).Perm
      (Trie.gather inherited (.node children slots) key ++ Entry.seenFrom ⟨[],covers,item⟩ key) := by
  have last (a b c : List E) : (a ++ (b ++ item :: c)).Perm (a ++ (b ++ (c ++ [item]))) :=
    ((perm_append_singleton item c).symm.append_left b).append_left a
  cases key with
  | nil =>
    cases covers
    · simp [Trie.gather,Slots.add,Entry.seenFrom,Entry.Sees]
    · simpa [Trie.gather,Slots.add,Entry.seenFrom,Entry.Sees] using last _ _ _
  | cons k ks =>
    cases child : children k with
    | none => cases covers <;> simp [Trie.gather,Slots.add,Entry.seenFrom,Entry.Sees,child]
    | some t =>
      cases covers
      · simp [Trie.gather,Slots.add,Entry.seenFrom,Entry.Sees,child]
      · simp only [Trie.gather,child,Slots.add,Entry.seenFrom,Entry.Sees,↓reduceIte, nil_prefix]
        rw [gather_inherited _ t,gather_inherited (inherited ++ slots.below) t]
        simpa using last _ _ _

-- Past its first segment only a lookup that takes the same child sees it.
theorem gather_insert [DecidableEq K] (e : Entry K E) (t : Trie K E) (key : List K) :
    ((t.insert e).gather inherited key).Perm (t.gather inherited key ++ e.seenFrom key) := by
  obtain ⟨path,covers,item⟩ := e
  change ((t.insertAt covers item path).gather inherited key).Perm _
  induction path generalizing t inherited key with
  | nil => cases t; exact gather_add inherited _ _ covers item key
  | cons k ks ih =>
    cases t with
    | node children slots =>
      cases key with
      | nil => cases covers <;> simp [Trie.insertAt,Trie.gather,Entry.seenFrom,Entry.Sees]
      | cons j js =>
        by_cases same : j = k
        · subst j
          have step := ih (inherited ++ slots.below) ((children k).getD .empty) js
          have seen : Entry.seenFrom ⟨k :: ks,covers,item⟩ (k :: js) = Entry.seenFrom ⟨ks,covers,item⟩ js := by
            cases covers <;> simp [Entry.seenFrom,Entry.Sees]
          rw [seen]
          cases child : children k with
          | none => simpa [Trie.insertAt,Trie.gather,child,gather_empty] using step
          | some t => simpa [Trie.insertAt,Trie.gather,child] using step
        · have unseen : Entry.seenFrom ⟨k :: ks,covers,item⟩ (j :: js) = ([] : List E) := by
            cases covers <;> simp [Entry.seenFrom,Entry.Sees,Ne.symm same]
          simp [unseen,Trie.insertAt,Trie.gather,same]

def insertAll [DecidableEq K] (entries : List (Entry K E)) : Trie K E := entries.foldl Trie.insert .empty

theorem gather_insertAll [DecidableEq K] (entries : List (Entry K E)) (key : List K) :
    ((insertAll entries).gather [] key).Perm ((entries.filter fun e => e.Sees key).map Entry.item) := by
  induction entries using List.reverseRecOn with
  | nil => simp [insertAll,gather_empty]
  | append_singleton entries e ih =>
    have step := gather_insert [] e (insertAll entries) key
    rw [insertAll,foldl_append,filter_append,map_append]
    refine step.trans (ih.append ?_)
    by_cases sees : e.Sees key <;> simp [Entry.seenFrom,sees]

theorem lookup_insertAll [DecidableEq K] (arranged : ∀ l, (arrange l).Perm l) (entries : List (Entry K E)) (key : List K) :
    (((insertAll entries).flatten arrange []).lookup key).Perm ((entries.filter fun e => e.Sees key).map Entry.item) :=
  (lookup_flatten arranged [] _ key).trans (gather_insertAll entries key)

end SegmentTrie
