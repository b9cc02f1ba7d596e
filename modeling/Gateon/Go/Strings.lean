import Mathlib.Algebra.Order.Ring.Nat
import Mathlib.Data.List.Forall2
import Mathlib.Data.List.Sort

namespace Gateon.Go
open List Option

-- Nothing in the language makes a string valid UTF-8, so neither does the model.
abbrev GoString := List UInt8

instance : LawfulBEq GoString := inferInstance

def lit (s : String) : GoString := s.toUTF8.data.toList
def byte (c : Char) : UInt8 := c.toUInt8

def index (sub : GoString) : GoString → Option Nat
  | [] => if sub.isEmpty then some 0 else none
  | c :: t => if sub.isPrefixOf (c :: t) then some 0 else (index sub t).map (· + 1)

def contains (s sub : GoString) : Bool := (index sub s).isSome
def hasPrefix (s p : GoString) : Bool := p.isPrefixOf s
def hasSuffix (s p : GoString) : Bool := p.isSuffixOf s
def cutPrefix (s p : GoString) : Option GoString := if hasPrefix s p then some (s.drop p.length) else none

-- Without overlap: `skip` bytes of the last occurrence are still to be passed over.
def countFrom (sub : GoString) : Nat → GoString → Nat
  | _,[] => 0
  | skip+1,_ :: t => countFrom sub skip t
  | 0,c :: t => if sub.isPrefixOf (c :: t) then countFrom sub (sub.length-1) t + 1 else countFrom sub 0 t

def count (s sub : GoString) : Nat := countFrom sub 0 s

-- strings.ReplaceAll of a text that is not empty.
def replaceFrom (old new : GoString) : Nat → GoString → GoString
  | _,[] => []
  | skip+1,_ :: t => replaceFrom old new skip t
  | 0,c :: t => if old.isPrefixOf (c :: t) then new ++ replaceFrom old new (old.length-1) t else c :: replaceFrom old new 0 t

def replaceAll (s old new : GoString) : GoString := replaceFrom old new 0 s
def isAlnum (b : UInt8) : Bool := (97 ≤ b && b ≤ 122) || (65 ≤ b && b ≤ 90) || (48 ≤ b && b ≤ 57)
def lowerByte (b : UInt8) : UInt8 := if 65 ≤ b && b ≤ 90 then b + 32 else b
def upperByte (b : UInt8) : UInt8 := if 97 ≤ b && b ≤ 122 then b - 32 else b
def indexByte (s : GoString) (c : UInt8) : Option Nat := s.findIdx? (· == c)
def lastIndexByte (s : GoString) (c : UInt8) : Option Nat :=
  (s.reverse.findIdx? (· == c)).map (s.length - 1 - ·)

def cut (s : GoString) (c : UInt8) : GoString × GoString × Bool :=
  match s with
  | [] => ([],[],false)
  | b :: t => if b == c then ([],t,true) else
    let (before,after,found) := cut t c
    (b :: before,after,found)

def trim (s : GoString) (c : UInt8) : GoString :=
  ((s.dropWhile (· == c)).reverse.dropWhile (· == c)).reverse
def split (s : GoString) (c : UInt8) : List GoString := s.splitOn c
def join (parts : List GoString) (sep : GoString) : GoString := List.intercalate sep parts

-- strings.Compare: bytewise, which on List UInt8 is the lexicographic order.
def compareStrings (a b : GoString) : Ordering := compare a b

instance : Std.TransCmp compareStrings := inferInstanceAs (Std.TransCmp (compare : GoString → GoString → Ordering))
instance : Std.LawfulEqCmp compareStrings := inferInstanceAs (Std.LawfulEqCmp (compare : GoString → GoString → Ordering))

def NotAfter (a b : GoString) : Prop := (compareStrings a b).isLE

instance : DecidableRel NotAfter := fun _ _ => inferInstanceAs (Decidable (_ = true))
instance : IsTrans GoString NotAfter := ⟨fun _ _ _ one two => Std.TransCmp.isLE_trans one two⟩

instance : Std.Total NotAfter where
  total x y := by
    have flipped : compareStrings y x = (compareStrings x y).swap := Std.OrientedCmp.eq_swap
    rw [NotAfter,NotAfter,flipped]
    cases compareStrings x y <;> simp

def sorted (names : List GoString) : List GoString := names.insertionSort NotAfter

theorem sorted_mem : v ∈ sorted list ↔ v ∈ list := mem_insertionSort NotAfter

theorem sorted_perm (same : a.Perm b) : sorted a = sorted b := by
  refine List.Perm.eq_of_pairwise ?_ (pairwise_insertionSort NotAfter a) (pairwise_insertionSort NotAfter b) ?_
  · intro x y _ _ one two; exact Std.LawfulEqCmp.eq_of_compare (Std.OrientedCmp.isLE_antisymm one two)
  · exact (perm_insertionSort _ _).trans (same.trans (perm_insertionSort _ _).symm)

theorem every_byte {p : UInt8 → Prop} (check : ∀ n : Fin 256, p (UInt8.ofNat n)) (b : UInt8) : p b := by
  have found := check ⟨b.toNat,b.toNat_lt⟩
  rwa [UInt8.ofNat_toNat] at found

theorem indexByte_split : indexByte s c = some i ↔ ∃ a b, s = a ++ c :: b ∧ c ∉ a ∧ a.length = i := by
  unfold indexByte
  constructor
  · intro found
    obtain ⟨inside,here,first⟩ := findIdx?_eq_some_iff_getElem.mp found
    refine ⟨s.take i,s.drop (i+1),?_,fun member => ?_,length_take_of_le inside.le⟩
    · rw [← beq_iff_eq.mp here,← drop_eq_getElem_cons inside,take_append_drop]
    · obtain ⟨j,early,same⟩ := mem_take_iff_getElem.mp member
      exact first j (by omega) (beq_iff_eq.mpr same)
  · rintro ⟨a,b,rfl,missing,rfl⟩
    have before : a.findIdx? (· == c) = none := findIdx?_eq_none_iff.mpr (by simpa using fun x mem => ne_of_mem_of_not_mem mem missing)
    simp [findIdx?_append,before,findIdx?_cons]

theorem split_cut (s : GoString) (c : UInt8) :
    split s c = (cut s c).1 :: if (cut s c).2.2 then split (cut s c).2.1 c else [] := by
  unfold split List.splitOn
  induction s with
  | nil => rfl
  | cons b t ih =>
    rw [splitOnP_cons_eq_if_modifyHead]
    unfold cut
    by_cases same : b = c
    · simp [same]
    · simp [same,ih]

theorem split_join (parts : List GoString) (some : parts ≠ []) (whole : ∀ part ∈ parts, c ∉ part) :
    split (join parts [c]) c = parts := splitOn_intercalate c whole some

theorem contains_iff : contains s sub ↔ sub <:+: s := by
  unfold contains
  induction s with
  | nil => cases sub <;> simp [index]
  | cons c t ih =>
    unfold index
    split
    · rename_i begins; simp [( isPrefixOf_iff_prefix.mp begins).isInfix]
    · rename_i other
      rw [isSome_map,ih,infix_cons_iff]
      simp [← isPrefixOf_iff_prefix,other]

theorem cut_parts (s : GoString) (c : UInt8) :
    c ∉ (cut s c).1 ∧ if (cut s c).2.2 then s = (cut s c).1 ++ c :: (cut s c).2.1 else s = (cut s c).1 := by
  induction s with
  | nil => simp [cut]
  | cons b t ih =>
    unfold cut
    by_cases same : b = c
    · simp [same]
    obtain ⟨missing,whole⟩ := ih
    simp only [beq_iff_eq,same,↓reduceIte,mem_cons,missing,or_false,Ne.symm same,not_false_eq_true,true_and]
    split at whole
    · rename_i found; rw [if_pos found,cons_append,← whole]
    · rename_i absent; rw [if_neg absent,← whole]

theorem cut_shorter (found : (cut s c).2.2) : (cut s c).2.1.length < s.length := by
  obtain ⟨_,whole⟩ := cut_parts s c
  rw [if_pos found] at whole
  have length := congrArg List.length whole
  rw [length_append,length_cons] at length
  omega

theorem cut_append (missing : c ∉ a) (b : GoString) : cut (a ++ c :: b) c = (a,b,true) := by
  induction a with
  | nil => simp [cut]
  | cons d a ih => simp only [mem_cons,not_or] at missing; simp [cut,Ne.symm missing.1,ih missing.2]

theorem cut_none (missing : c ∉ s) : cut s c = (s,[],false) := by
  induction s with
  | nil => rfl
  | cons d s ih => simp only [mem_cons,not_or] at missing; simp [cut,Ne.symm missing.1,ih missing.2]

theorem split_append (missing : c ∉ a) (b : GoString) : split (a ++ c :: b) c = a :: split b c :=
  splitOn_append_cons_self_of_not_mem missing b

theorem split_none (missing : c ∉ s) : split s c = [s] := splitOn_eq_singleton missing

theorem split_byte (apart : b ≠ c) (later : split s c = part :: rest) : split (b :: s) c = (b :: part) :: rest := by
  unfold split List.splitOn at later ⊢
  rw [splitOnP_cons_eq_if_modifyHead,later]
  simp [apart]

theorem split_filled (s : GoString) (c : UInt8) : split s c ≠ [] := splitOn_ne_nil c s
theorem split_joined (a b : GoString) (c : UInt8) : split (a ++ c :: b) c = split a c ++ split b c := splitOn_append_cons_self a b

theorem mem_split : part ∈ split s c ↔ ∃ u v, s = u ++ part ++ v ∧ c ∉ part ∧
    (u = [] ∨ ∃ u', u = u' ++ [c]) ∧ (v = [] ∨ ∃ v', v = c :: v') := by
  constructor
  · intro mem
    induction size : s.length using Nat.strongRecOn generalizing s with
    | ind n ih =>
      obtain ⟨missing,whole⟩ := cut_parts s c
      split at whole
      · rename_i found
        have shorter := cut_shorter found
        generalize (cut s c).1 = a at missing whole
        generalize (cut s c).2.1 = b at whole shorter
        subst whole
        rw [split_append missing,mem_cons] at mem
        rcases mem with same | later
        · exact ⟨[],c :: b,by simp [same],same ▸ missing,.inl rfl,.inr ⟨b,rfl⟩⟩
        obtain ⟨u,v,same,free,before,after⟩ := ih b.length (size ▸ shorter) later rfl
        refine ⟨a ++ c :: u,v,by simp [same],free,.inr ?_,after⟩
        rcases before with first | ⟨u',last⟩
        · exact ⟨a,by simp [first]⟩
        · exact ⟨a ++ c :: u',by simp [last]⟩
      · have absent : c ∉ s := whole ▸ missing
        rw [split_none absent,mem_singleton] at mem
        exact ⟨[],[],by simp [mem],mem ▸ absent,.inl rfl,.inl rfl⟩
  · rintro ⟨u,v,rfl,free,before,after⟩
    have here : part ∈ split (part ++ v) c := by
      rcases after with rfl | ⟨v',rfl⟩
      · simp [split_none free]
      · simp [split_append free]
    rcases before with rfl | ⟨u',rfl⟩
    · exact here
    · rw [append_assoc,append_assoc,singleton_append,split_joined]
      exact mem_append_right _ here

theorem before_inj {a b x y : GoString} (free : c ∉ a) (free' : c ∉ b) (same : a ++ c :: x = b ++ c :: y) : a = b ∧ x = y := by
  have cuts := congrArg (cut · c) same
  simpa only [cut_append free,cut_append free',Prod.mk.injEq,and_true] using cuts

theorem after_inj {a b x y : GoString} (free : c ∉ a) (free' : c ∉ b) (same : x ++ c :: a = y ++ c :: b) : a = b ∧ x = y := by
  have mirrored := congrArg List.reverse same
  simp only [reverse_append,reverse_cons,append_assoc,singleton_append] at mirrored
  obtain ⟨left,right⟩ := before_inj (by simpa using free) (by simpa using free') mirrored
  exact ⟨reverse_injective left,reverse_injective right⟩

theorem mapM_forall₂ {f : α → Option β} {xs : List α} {ys : List β} : xs.mapM f = some ys ↔ Forall₂ (fun x y => f x = some y) xs ys := by
  induction xs generalizing ys with
  | nil => simp [eq_comm]
  | cons x xs ih => simp [mapM_cons,bind_eq_some_iff,forall₂_cons_left_iff,← ih,@eq_comm _ ys]

-- Texts that each show where they end are told apart when run together.
theorem flatMap_inj {f : α → List β} {as bs : List α} (filled : ∀ a, f a ≠ []) (shown : ∀ a ∈ as, ∀ b ∈ bs, ∀ x y, f a ++ x = f b ++ y → a = b)
    (same : as.flatMap f = bs.flatMap f) : as = bs := by
  induction as generalizing bs with
  | nil => cases bs <;> simp_all
  | cons a as ih =>
    cases bs with
    | nil => simp_all
    | cons b bs =>
      rw [flatMap_cons,flatMap_cons] at same
      cases shown a mem_cons_self b mem_cons_self _ _ same
      rw [ih (fun c held d held' => shown c (mem_cons_of_mem _ held) d (mem_cons_of_mem _ held')) (append_cancel_left same)]

theorem join_inj (whole : ∀ part ∈ p, c ∉ part ∧ part ≠ []) (whole' : ∀ part ∈ q, c ∉ part ∧ part ≠ [])
    (same : join p [c] = join q [c]) : p = q := by
  have empty : ∀ parts : List GoString, (∀ part ∈ parts, c ∉ part ∧ part ≠ []) → join parts [c] = [] → parts = [] := by
    intro parts filled nothing
    cases parts with
    | nil => rfl
    | cons first rest =>
      have parts := split_join (first :: rest) (by simp) fun part mem => (filled part mem).1
      rw [nothing] at parts
      exact absurd (List.cons.inj parts).1.symm (filled first (mem_cons_self ..)).2
  by_cases none : p = []
  · rw [none] at same ⊢; exact (empty q whole' same.symm).symm
  · by_cases none' : q = []
    · rw [none'] at same; exact absurd (empty p whole same) none
    · rw [← split_join p none fun part mem => (whole part mem).1,← split_join q none' fun part mem => (whole' part mem).1,same]

theorem join_cons (p q : GoString) (rest : List GoString) (sep : GoString) :
    join (p :: q :: rest) sep = p ++ sep ++ join (q :: rest) sep := intercalate_cons_cons ..

theorem mem_join (mem : c ∈ join parts sep) : c ∈ sep ∨ ∃ part ∈ parts, c ∈ part := by
  induction parts with
  | nil => cases mem
  | cons first rest ih =>
    cases rest with
    | nil => exact .inr ⟨first,mem_cons_self,by simpa [join] using mem⟩
    | cons second rest =>
      rw [join_cons,mem_append,mem_append] at mem
      rcases mem with (here | between) | later
      · exact .inr ⟨first,mem_cons_self,here⟩
      · exact .inl between
      · exact (ih later).imp_right fun ⟨part,inside,held⟩ => ⟨part,mem_cons_of_mem _ inside,held⟩

theorem count_byte (s : GoString) (c : UInt8) : count s [c] = s.count c := by
  unfold count
  induction s with
  | nil => rfl
  | cons b s ih =>
    have zero : countFrom [c] ([c].length - 1) s = countFrom [c] 0 s := rfl
    by_cases same : b = c
    · subst b; rw [countFrom,if_pos (by simp),zero,ih,count_cons_self]
    · rw [countFrom,if_neg (by simpa using Ne.symm same),ih,count_cons_of_ne same]

theorem lastIndexByte_none : lastIndexByte s c = none ↔ c ∉ s := by
  simp only [lastIndexByte,map_eq_none_iff,findIdx?_eq_none_iff,mem_reverse,beq_eq_false_iff_ne]
  exact ⟨fun all mem => all c mem rfl,fun missing x mem => ne_of_mem_of_not_mem mem missing⟩

theorem lastIndexByte_found (missing : c ∉ b) (a : GoString) : lastIndexByte (a ++ c :: b) c = some a.length := by
  have before : b.reverse.findIdx? (· == c) = none :=
    findIdx?_eq_none_iff.mpr (by simpa using fun x mem => ne_of_mem_of_not_mem mem missing)
  have found : (a ++ c :: b).reverse.findIdx? (· == c) = some b.length := by
    simp [findIdx?_append,before,findIdx?_cons]
  rw [lastIndexByte,found,map_some,length_append,length_cons]
  congr 1
  omega

end Gateon.Go
