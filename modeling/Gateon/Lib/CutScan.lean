import Mathlib.Data.List.TakeWhile

-- Scanning a text for spans, and what a scan of the text cut short still finds.
namespace CutScan
open List

structure Span (L : Type) where
  label : L
  start : Nat
  stop : Nat

-- Offsets count from the place; `next` is where the scan goes on.
inductive Move (L : Type) where
  | halt
  | pass (next : Nat)
  | hit (label : L) (start stop next : Nat)

variable {α L : Type}

section
variable (look : List α → List α → Move L)

def scan : Nat → List α → List α → List (Span L)
  | 0,_,_ => []
  | _+1,_,[] => []
  | fuel+1,done,b :: t => match look done (b :: t) with
    | .halt => []
    | .pass k => scan fuel (done ++ (b :: t).take k) ((b :: t).drop k)
    | .hit l i j k => ⟨l,done.length+i,done.length+j⟩ :: scan fuel (done ++ (b :: t).take k) ((b :: t).drop k)

def scanAll (s : List α) : List (Span L) := scan look s.length [] s
def Covers (spans : List (Span L)) (x : Nat) : Prop := ∃ span ∈ spans, span.start ≤ x ∧ x < span.stop

-- Of what was covered in a text, nothing but what is `lost` is uncovered by cutting it after `n`.
def Keeps (spans : List α → List (Span L)) (s : List α) (n : Nat) (lost : Nat → Prop) : Prop :=
  ∀ x < n, Covers (spans s) x → Covers (spans (s.take n)) x ∨ lost x

def Move.next : Move L → Nat
  | .halt => 0
  | .pass k => k
  | .hit _ _ _ k => k

def Progress : Prop := ∀ done rest, look done rest ≠ .halt → 0 < (look done rest).next

end

variable {look : List α → List α → Move L}
variable {s : List α}

theorem scan_start (fuel : Nat) (done rest : List α) (whole : done ++ rest = s)
    (hits : ∀ before after, before ++ after = s → done.length ≤ before.length → ∀ l i j k, look before after = .hit l i j k →
      floor ≤ before.length + i) : ∀ span ∈ scan look fuel done rest, floor ≤ span.start := by
  induction fuel generalizing done rest with
  | zero => nofun
  | succ fuel ih =>
    cases rest with
    | nil => nofun
    | cons b t =>
      have onward (k : Nat) : ∀ span ∈ scan look fuel (done ++ (b :: t).take k) ((b :: t).drop k), floor ≤ span.start := by
        refine ih _ _ (by rw [append_assoc,take_append_drop,whole]) ?_
        intro before after split later
        exact hits before after split (Nat.le_trans (by simp) later)
      rw [scan]
      cases move : look done (b :: t) with
      | halt => nofun
      | pass k => exact onward k
      | hit l i j k => exact forall_mem_cons.mpr ⟨hits done (b :: t) whole le_rfl l i j k move,onward k⟩

theorem scan_after (fuel : Nat) (done rest : List α) : ∀ span ∈ scan look fuel done rest, done.length ≤ span.start := by
  refine scan_start fuel done rest rfl ?_
  intro before after _ later l i j k _
  omega

theorem later_text {done rest before after : List α} (splits : before ++ after = done ++ rest) (later : done.length ≤ before.length) :
    after = rest.drop (before.length - done.length) := by
  have dropped : (before ++ after).drop before.length = after := drop_left
  rw [← dropped,splits,drop_append,drop_eq_nil_of_le later,nil_append]

-- What the scan of the text cut after `m` more bytes still finds here.
inductive StepCut (look : List α → List α → Move L) (lost : Nat → Prop) (fuel : Nat) (done rest : List α) (m : Nat) : Prop where
  | same : look done (rest.take m) = look done rest → StepCut look lost fuel done rest m
  | past : m ≤ (look done rest).next ∨ look done rest = .halt →
      (∀ l i j k, look done rest = .hit l i j k → ∀ x, i ≤ x → x < j → x < m →
        (∃ l' i' j' k', look done (rest.take m) = .hit l' i' j' k' ∧ i' ≤ x ∧ x < j') ∨ lost (done.length + x)) →
      StepCut look lost fuel done rest m
  | rest (l : L) (i j k : Nat) : look done (rest.take m) = .hit l i j k → m ≤ j →
      (∀ span ∈ scan look fuel done rest, done.length + i ≤ span.start) → StepCut look lost fuel done rest m

section
variable {done rest : List α}

theorem StepCut.pass (move : look done rest = .pass k) (far : m ≤ k) : StepCut look lost fuel done rest m := by
  refine .past (.inl (by rw [move]; exact far)) ?_
  rw [move]
  nofun

theorem StepCut.halt (move : look done rest = .halt) : StepCut look lost fuel done rest m := by
  refine .past (.inr move) ?_
  rw [move]
  nofun

theorem StepCut.hit (move : look done rest = .hit l i j k) (far : m ≤ k) (each : ∀ x, i ≤ x → x < j → x < m →
      (∃ l' i' j' k', look done (rest.take m) = .hit l' i' j' k' ∧ i' ≤ x ∧ x < j') ∨ lost (done.length + x)) :
    StepCut look lost fuel done rest m := by
  refine .past (.inl (by rw [move]; exact far)) ?_
  intro l' i' j' k' hit
  rw [move] at hit
  cases hit
  exact each

end

theorem scan_hit (move : look done rest = .hit l i j k) (filled : rest ≠ []) :
    ⟨l,done.length+i,done.length+j⟩ ∈ scan look (fuel+1) done rest := by
  cases rest with
  | nil => exact absurd rfl filled
  | cons b t => rw [scan,move]; exact mem_cons_self ..

theorem covers_hit (move : look done rest = .hit l i j k) (filled : rest ≠ [])
    (enough : rest.length ≤ fuel) (low : done.length + i ≤ x) (high : x < done.length + j) : Covers (scan look fuel done rest) x := by
  cases fuel with
  | zero => exact absurd (length_eq_zero_iff.mp (Nat.le_zero.mp enough)) filled
  | succ fuel => exact ⟨_,scan_hit move filled,low,high⟩

theorem covers_cons (span : Span L) (spans : List (Span L)) (x : Nat) :
    Covers (span :: spans) x ↔ (span.start ≤ x ∧ x < span.stop) ∨ Covers spans x := by
  simp [Covers]

theorem scan_later {span : Span L} (goes : look done rest ≠ .halt) (filled : rest ≠ [])
    (later : span ∈ scan look fuel (done ++ rest.take (look done rest).next) (rest.drop (look done rest).next)) :
    span ∈ scan look (fuel+1) done rest := by
  cases rest with
  | nil => exact absurd rfl filled
  | cons b t =>
    rw [scan]
    cases move : look done (b :: t) with
    | halt => exact absurd move goes
    | pass k => rwa [move] at later
    | hit l i j k => rw [move] at later; exact mem_cons_of_mem _ later

theorem covers_scan (covered : Covers (scan look (fuel+1) done rest) x) :
    (∃ l i j k, look done rest = .hit l i j k ∧ done.length + i ≤ x ∧ x < done.length + j) ∨
    look done rest ≠ .halt ∧ Covers (scan look fuel (done ++ rest.take (look done rest).next) (rest.drop (look done rest).next)) x := by
  cases rest with
  | nil => obtain ⟨_,member,_⟩ := covered; cases member
  | cons b t =>
    rw [scan] at covered
    cases move : look done (b :: t) with
    | halt => rw [move] at covered; obtain ⟨_,member,_⟩ := covered; cases member
    | pass k => rw [move] at covered; exact .inr ⟨nofun,covered⟩
    | hit l i j k =>
      rw [move] at covered
      exact ((covers_cons _ _ x).mp covered).imp (fun here => ⟨l,i,j,k,rfl,here⟩) fun later => ⟨nofun,later⟩

section
variable {lost : Nat → Prop} (progress : Progress look) (inside : n ≤ s.length) (each : ∀ fuel done rest, done ++ rest = s → 0 < n - done.length → n - done.length ≤ rest.length → rest ≠ [] → (∀ span ∈ scan look (fuel+1) done rest, span ∈ scanAll look s) → StepCut look lost (fuel+1) done rest (n - done.length))
include progress inside each

theorem scan_cut_from (fuel short : Nat) (done rest : List α) (whole : done ++ rest = s) (enough : n - done.length ≤ short)
    (mine : ∀ span ∈ scan look fuel done rest, span ∈ scanAll look s) :
    ∀ x < n, Covers (scan look fuel done rest) x → Covers (scan look short done (rest.take (n - done.length))) x ∨ lost x := by
  induction fuel generalizing short done rest with
  | zero => rintro x _ ⟨span,member,_⟩; cases member
  | succ fuel ih =>
    intro x below ⟨span,member,low,high⟩
    have before := scan_after _ _ _ span member
    have lengths : done.length + rest.length = s.length := by rw [← whole,length_append]
    have filled : rest ≠ [] := ne_nil_of_length_pos (by omega)
    have step := each fuel done rest whole (by omega) (by omega) filled mine
    generalize cut : n - done.length = m at step enough ⊢
    have left : rest.take m ≠ [] := ne_nil_of_length_pos (by rw [length_take]; omega)
    have room : (rest.take m).length ≤ short := by rw [length_take]; omega
    have onward (goes : look done rest ≠ .halt)
        (later : Covers (scan look fuel (done ++ rest.take (look done rest).next) (rest.drop (look done rest).next)) x) :
        (look done rest).next < m ∧ (Covers (scan look (short-1) (done ++ rest.take (look done rest).next)
          ((rest.take m).drop (look done rest).next)) x ∨ lost x) := by
      have moves := progress done rest goes
      have reach : (look done rest).next < m := by
        by_contra far
        obtain ⟨span,member,low,_⟩ := later
        have after := scan_after _ _ _ span member
        simp only [length_append,length_take] at after
        omega
      have size : (done ++ rest.take (look done rest).next).length = done.length + (look done rest).next := by
        rw [length_append,length_take]
        omega
      have found := ih (short-1) _ _ (by rw [append_assoc,take_append_drop,whole]) (by omega)
        (fun span member => mine span (scan_later goes filled member)) x below later
      rw [size,← Nat.sub_sub,cut,← drop_take] at found
      exact ⟨reach,found⟩
    have covered := covers_scan ⟨span,member,low,high⟩
    cases step with
    | same alike =>
      rcases covered with ⟨l,i,j,k,move,low,high⟩ | ⟨goes,later⟩
      · exact .inl (covers_hit (alike.trans move) left room low high)
      obtain ⟨reach,found⟩ := onward goes later
      refine found.imp_left fun ⟨span,member,bounds⟩ => ⟨span,?_,bounds⟩
      rw [show short = short-1+1 by omega]
      refine scan_later (alike ▸ goes) left ?_
      rwa [alike,take_take,Nat.min_eq_left reach.le]
    | past reaches hits =>
      rcases covered with ⟨l,i,j,k,move,low,high⟩ | ⟨goes,later⟩
      · rcases hits l i j k move (x - done.length) (by omega) (by omega) (by omega) with ⟨l',i',j',k',found,low',high'⟩ | gone
        · exact .inl (covers_hit found left room (by omega) (by omega))
        · rw [show done.length + (x - done.length) = x by omega] at gone; exact .inr gone
      · exact absurd (reaches.resolve_right goes) (Nat.not_le_of_lt (onward goes later).1)
    | rest l i j k move wide floor =>
      have start := floor span member
      exact .inl (covers_hit move left room (by omega) (by omega))

theorem scan_cut : Keeps (scanAll look) s n lost := by
  have found := scan_cut_from progress inside each s.length n [] s rfl (by simp) fun _ member => member
  intro x below covered
  have found := found x below covered
  rw [length_nil,Nat.sub_zero] at found
  rwa [scanAll,length_take,Nat.min_eq_left inside]

end

def CutOff (spans : List (Span L)) (unread : L → List α → Bool) (s : List α) (n x : Nat) : Prop :=
  ∃ span ∈ spans, span.start ≤ x ∧ x < n ∧ n < span.stop ∧ unread span.label ((s.drop span.start).take (n - span.start))

instance (spans : List (Span L)) (unread : L → List α → Bool) (s : List α) (n x : Nat) : Decidable (CutOff spans unread s n x) :=
  inferInstanceAs (Decidable (∃ span ∈ spans, span.start ≤ x ∧ x < n ∧ n < span.stop ∧ unread span.label _ = true))

theorem cutOff_hit (whole : done ++ rest = s)
    (mine : ∀ span ∈ scan look (fuel+1) done rest, span ∈ scanAll look s) (move : look done rest = .hit l i j k) (filled : rest ≠ [])
    (crosses : n - done.length < j) (left : unread l ((rest.drop i).take (n - done.length - i)))
    (low : i ≤ x) (below : x < n - done.length) : CutOff (scanAll look s) unread s n (done.length + x) := by
  refine ⟨_,mine _ (scan_hit move filled),Nat.add_le_add_left low _,by omega,show n < done.length + j by omega,?_⟩
  rw [← whole,drop_append,drop_eq_nil_of_le (Nat.le_add_right ..),nil_append,Nat.add_sub_cancel_left,← Nat.sub_sub]
  exact left

theorem covers_append (a b : List (Span L)) (x : Nat) : Covers (a ++ b) x ↔ Covers a x ∨ Covers b x := by
  simp only [Covers,mem_append,or_and_right,exists_or]

instance (spans : List (Span L)) (x : Nat) : Decidable (Covers spans x) :=
  inferInstanceAs (Decidable (∃ span ∈ spans, span.start ≤ x ∧ x < span.stop))

end CutScan
