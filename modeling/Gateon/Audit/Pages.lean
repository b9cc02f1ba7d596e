import Gateon.Audit.Verify

namespace Gateon.Audit
open Go Nat
open List hiding after

variable {K : Type} [LinearOrder K] {zone : Zone K}

section
variable {prev : GoString}

def InTime (zone : Zone K) (entries : List AuditEntry) : Prop := entries.Pairwise fun a b => zone.column a.timestamp ≤ zone.column b.timestamp

theorem inTime_times (same : a.map AuditEntry.timestamp = b.map AuditEntry.timestamp) (inTime : InTime zone a) : InTime zone b := by
  have spelled (l : List AuditEntry) : InTime zone l ↔
      (l.map AuditEntry.timestamp).Pairwise fun x y => zone.column x ≤ zone.column y := by rw [pairwise_map]; rfl
  rw [spelled] at inTime ⊢
  rwa [← same]

-- The entry found names the head and is as old as the first one, which takes its place.
theorem swapTie_spec (found : swapTie prev e rest = some (f,others)) :
    f.previousHash = prev ∧ f.timestamp = e.timestamp ∧ (f :: others).Perm (e :: rest) ∧
      others.map AuditEntry.timestamp = rest.map AuditEntry.timestamp := by
  induction rest generalizing others with
  | nil => cases found
  | cons g rest ih =>
    obtain ⟨tied,found⟩ := Option.ite_none_left_eq_some.mp found
    split at found
    · rename_i named
      cases found
      exact ⟨named,not_not.mp tied,.swap e f rest,by rw [map_cons,map_cons,not_not.mp tied]⟩
    · obtain ⟨_,inner,same⟩ := Option.map_eq_some_iff.mp found
      obtain ⟨rfl,rfl⟩ := Prod.mk.inj same
      obtain ⟨named,dated,perm,times⟩ := ih inner
      have moved := (List.Perm.swap g _ _).trans ((perm.cons g).trans (.swap e g rest))
      exact ⟨named,dated,moved,by rw [map_cons,map_cons,times]⟩

theorem tie_round (prev : GoString) (e : AuditEntry) (rest : List AuditEntry) :
    ∃ f others, (if e.previousHash ≠ prev then (swapTie prev e rest).getD (e,rest) else (e,rest)) = (f,others) ∧
      (f :: others).Perm (e :: rest) ∧ f.timestamp = e.timestamp ∧
      others.map AuditEntry.timestamp = rest.map AuditEntry.timestamp := by
  have stays : (e :: rest).Perm (e :: rest) ∧ e.timestamp = e.timestamp ∧
      rest.map AuditEntry.timestamp = rest.map AuditEntry.timestamp := ⟨.refl _,rfl,rfl⟩
  split
  · cases found : swapTie prev e rest with
    | none => exact ⟨e,rest,rfl,stays⟩
    | some swapped => have ⟨_,dated,perm,times⟩ := swapTie_spec found; exact ⟨swapped.1,swapped.2,rfl,perm,dated,times⟩
  · exact ⟨e,rest,rfl,stays⟩

theorem orderTiesFrom_keeps (fuel : Nat) (prev : GoString) (entries : List AuditEntry) :
    (orderTiesFrom fuel prev entries).Perm entries ∧
      (orderTiesFrom fuel prev entries).map AuditEntry.timestamp = entries.map AuditEntry.timestamp := by
  induction fuel generalizing prev entries with
  | zero => exact ⟨.refl _,rfl⟩
  | succ fuel ih =>
    cases entries with
    | nil => exact ⟨.refl _,rfl⟩
    | cons e rest =>
      obtain ⟨f,others,round,perm,first,later⟩ := tie_round prev e rest
      obtain ⟨kept,times⟩ := ih f.signature others
      have unfolded : orderTiesFrom (fuel+1) prev (e :: rest) = f :: orderTiesFrom fuel f.signature others := by
        simp only [orderTiesFrom,round]
      rw [unfolded]
      refine ⟨(kept.cons f).trans perm,?_⟩
      rw [map_cons,map_cons,first,times,later]

theorem orderTies_perm (entries : List AuditEntry) (genesis : GoString) : (orderTies entries genesis).Perm entries :=
  (orderTiesFrom_keeps _ genesis entries).1
theorem orderTies_inTime (inTime : InTime zone entries) (genesis : GoString) : InTime zone (orderTies entries genesis) :=
  inTime_times (orderTiesFrom_keeps _ genesis entries).2.symm inTime

def OneFollower (entries : List AuditEntry) : Prop :=
  ∀ x ∈ entries, ∀ y ∈ entries, x.previousHash = y.previousHash → x = y

theorem OneFollower.subset (one : OneFollower entries) (inside : ∀ e ∈ part, e ∈ entries) : OneFollower part :=
  fun x inX y inY => one x (inside x inX) y (inside y inY)

theorem swapTie_finds (inTime : InTime zone (e :: rest)) (member : f ∈ rest) (tied : f.timestamp = e.timestamp)
    (named : f.previousHash = prev) (one : OneFollower rest) : ∃ others, swapTie prev e rest = some (f,others) := by
  induction rest with
  | nil => cases member
  | cons g rest ih =>
    obtain ⟨later,tail⟩ := pairwise_cons.mp inTime
    have between : g.timestamp = e.timestamp := by
      rcases mem_cons.mp member with rfl | inside
      · exact tied
      · have high := (pairwise_cons.mp tail).1 f inside
        rw [tied] at high
        exact zone.column.injective (high.antisymm (later g mem_cons_self))
    by_cases here : g.previousHash = prev
    · cases one g mem_cons_self f member (here.trans named.symm)
      exact ⟨e :: rest,by simp [swapTie,between,here]⟩
    have inside : f ∈ rest := by
      rcases mem_cons.mp member with rfl | inside
      · exact absurd named here
      · exact inside
    have shorter : InTime zone (e :: rest) :=
      pairwise_cons.mpr ⟨(forall_mem_cons.mp later).2,(pairwise_cons.mp tail).2⟩
    obtain ⟨others,found⟩ := ih shorter inside (one.subset fun x => mem_cons_of_mem g)
    exact ⟨g :: others,by simp [swapTie,between,here,found]⟩

section
variable (perm : order.Perm entries) (inTime : InTime zone entries) (dated : InTime zone order)
include perm inTime dated

-- The entry that follows has the timestamp of the first one left.
theorem orderTiesFrom_linked (linked : Linked prev order) (one : OneFollower entries) (enough : entries.length ≤ fuel) :
    orderTiesFrom fuel prev entries = order := by
  induction fuel generalizing prev entries order with
  | zero =>
    have none := eq_nil_of_length_eq_zero (Nat.le_zero.mp enough)
    subst none
    rw [perm.eq_nil]
    rfl
  | succ fuel ih =>
    cases order with
    | nil => rw [perm.symm.eq_nil]; rfl
    | cons f order =>
      cases entries with
      | nil => cases perm.eq_nil
      | cons e rest =>
        obtain ⟨named,linked⟩ := linked
        obtain ⟨later,dated⟩ := pairwise_cons.mp dated
        have shorter : rest.length ≤ fuel := Nat.le_of_succ_le_succ enough
        by_cases first : e.previousHash = prev
        · cases one e mem_cons_self f (perm.subset mem_cons_self) (first.trans named.symm)
          have rest' := ih perm.cons_inv (pairwise_cons.mp inTime).2 dated linked
            (one.subset fun x => mem_cons_of_mem _) shorter
          simp [orderTiesFrom,first,rest']
        have other : e ≠ f := fun same => first (same ▸ named)
        have inside : f ∈ rest := (mem_cons.mp (perm.subset mem_cons_self)).resolve_left other.symm
        have tied : f.timestamp = e.timestamp := by
          have low := (pairwise_cons.mp inTime).1 f inside
          have behind : e ∈ order := (mem_cons.mp (perm.symm.subset mem_cons_self)).resolve_left other
          exact zone.column.injective ((later e behind).antisymm low)
        obtain ⟨others,found⟩ := swapTie_finds inTime inside tied named
          (one.subset fun x => mem_cons_of_mem e)
        obtain ⟨_,_,swapped,times⟩ := swapTie_spec found
        have left : order.Perm others := (perm.trans swapped.symm).cons_inv
        have sorted : InTime zone others := inTime_times times.symm (pairwise_cons.mp inTime).2
        have small : others.length ≤ fuel := by
          have lengths := swapped.length_eq
          rw [length_cons,length_cons] at lengths
          omega
        have rest' := ih left sorted dated linked
          (one.subset fun x member => swapped.subset (mem_cons_of_mem f member)) small
        simp [orderTiesFrom,first,found,rest']

theorem orderTies_linked
    (linked : Linked genesis order) (one : OneFollower entries) : orderTies entries genesis = order :=
  orderTiesFrom_linked perm inTime dated linked one le_rfl

end

theorem chain_fresh (chain : Chain mac key [] (a ++ b)) (member : x ∈ a) : x ∉ b := by
  obtain ⟨front,back,rfl⟩ := append_of_mem member
  rw [append_assoc,cons_append] at chain
  exact fun again => chain_no_repeat chain (mem_append_right back again) rfl

-- They would follow one signature twice, or the later would name "".
theorem chain_follower_apart (chain : Chain mac key [] (before ++ x :: after)) (member : y ∈ after) :
    y.previousHash ≠ x.previousHash := by
  intro same
  obtain ⟨named,tail⟩ := (linked_append.mp chain.1).2
  obtain ⟨p,inside,follows⟩ := linked_predecessor ⟨named,tail⟩ member
  cases before using reverseRecOn with
  | nil =>
    apply signEntry_filled mac p key
    rw [← chain_signature chain (by simpa using inside),← follows,same]
    exact named
  | append_singleton before w =>
    rw [append_assoc,singleton_append] at chain
    apply chain_no_repeat chain inside
    rw [← follows,same,named]
    simp [lastSignature]

theorem chain_one_follower (chain : Chain mac key [] entries) : OneFollower entries := by
  intro x inX y inY same
  obtain ⟨before,after,rfl⟩ := append_of_mem inX
  rcases mem_append.mp inY with earlier | here
  · obtain ⟨front,back,rfl⟩ := append_of_mem earlier
    rw [append_assoc,cons_append] at chain
    exact absurd same (chain_follower_apart chain (mem_append_right back mem_cons_self))
  · rcases mem_cons.mp here with rfl | later
    · rfl
    · exact absurd same.symm (chain_follower_apart chain later)

theorem chain_order_unique (chain : Chain mac key [] a) (other : Chain mac key [] b) (perm : b.Perm a) : b = a :=
  ( linked_infix chain other.1 fun _ member => perm.subset member).eq_of_length perm.length_eq

end

-- The chain departs from the order of reading only among rows of one timestamp.
structure ChainOrder (mac : Mac) (zone : Zone K) (key : GoString) (rows order : List AuditEntry) : Prop where
  perm : order.Perm rows
  inTime : InTime zone order
  chain : Chain mac key [] order

def ValidLog (mac : Mac) (zone : Zone K) (key : GoString) (rows : List AuditEntry) : Prop := ∃ order, ChainOrder mac zone key rows order

-- Where a page ends, the rows read are the first of the chain and its last comes last.
def Aligned (limit : Nat) (read order : List AuditEntry) : Prop :=
  ∀ k, 0 < k → k * limit < read.length →
    (read.take (k * limit)).Perm (order.take (k * limit)) ∧
      (read.take (k * limit)).getLast? = (order.take (k * limit)).getLast?

def windowEntries (zone : Zone K) (s : State) (limit : Int) (afterID : GoString) : List AuditEntry :=
  match window zone s.rows ⟨zeroTime,zeroTime,afterID,limit⟩ (windowLimit limit+1) with
  | .error _ => []
  | .ok (genesis,found) => orderTies (found.take (windowLimit limit)) genesis

def checkedEntries (mac : Mac) (zone : Zone K) (s : State) (limit now : Int) : Nat → GoString → List AuditEntry
  | 0,_ => []
  | fuel+1,afterID => match VerifyRange mac zone s ⟨zeroTime,zeroTime,afterID,limit⟩ now with
    | .error _ => []
    | .ok res => (windowEntries zone s limit afterID).take res.checked.toNat ++
      if res.nextAfterID = [] then [] else checkedEntries mac zone s limit now fuel res.nextAfterID

def Unbroken (results : List (Except GoString VerifyResult)) : Prop :=
  ∀ res, .ok res ∈ results → res.chainBreak = none
def EndsComplete (results : List (Except GoString VerifyResult)) : Prop :=
  ∃ res, results.getLast? = some (.ok res) ∧ res.complete = true

structure Covers (mac : Mac) (zone : Zone K) (s : State) (limit now : Int) (fuel : Nat) (afterID : GoString)
    (entries : List AuditEntry) : Prop where
  unbroken : Unbroken (followWindows mac zone s limit now fuel afterID)
  ends : EndsComplete (followWindows mac zone s limit now fuel afterID)
  checked : checkedEntries mac zone s limit now fuel afterID = entries

-- Ids are the primary key, and a signed row has a uuid for one.
structure Stored (mac : Mac) (key : GoString) (s : State) : Prop where
  on : signingKey s.manager = key
  filled : key ≠ []
  ids : (s.rows.map AuditEntry.id).Nodup
  named : ∀ e ∈ s.rows, Signed mac key e → e.id ≠ []

theorem readBack_inTime (zone : Zone K) (rows : List AuditEntry) : InTime zone (readBack zone rows) := by
  refine (pairwise_insertionSort (ReadsBefore zone) rows).imp ?_
  rintro a b (earlier | ⟨same,_⟩)
  · exact earlier.le
  · rw [same]

theorem perm_behind {a b x y : List AuditEntry} (front : a.Perm b) : (a ++ x).Perm (b ++ y) ↔ x.Perm y :=
  ⟨fun whole => (perm_append_left_iff a).mp (whole.trans (front.symm.append_right y)),front.append⟩

theorem take_page (left : List AuditEntry) (k limit : Nat) :
    left.take ((k+1) * limit) = left.take limit ++ (left.drop limit).take (k * limit) := by
  rw [succ_mul,add_comm,take_add]

section
variable {left order : List AuditEntry}

theorem aligned_later {k limit : Nat} (front : (left.take limit).Perm (order.take limit))
    (filled : (left.drop limit).take (k * limit) ≠ []) :
    ((left.take ((k+1) * limit)).Perm (order.take ((k+1) * limit)) ∧
      (left.take ((k+1) * limit)).getLast? = (order.take ((k+1) * limit)).getLast?) ↔
    (((left.drop limit).take (k * limit)).Perm ((order.drop limit).take (k * limit)) ∧
      ((left.drop limit).take (k * limit)).getLast? = ((order.drop limit).take (k * limit)).getLast?) := by
  rw [take_page,take_page,perm_behind front]
  refine and_congr_right fun perm => ?_
  have other : (order.drop limit).take (k * limit) ≠ [] := fun empty => filled (empty ▸ perm).eq_nil
  rw [getLast?_append_of_ne_nil _ filled,getLast?_append_of_ne_nil _ other]

theorem aligned_step (positive : 0 < limit) (more : limit < left.length) :
    Aligned limit left order ↔ (left.take limit).Perm (order.take limit) ∧
      (left.take limit).getLast? = (order.take limit).getLast? ∧ Aligned limit (left.drop limit) (order.drop limit) := by
  have filled (k : Nat) (after : 0 < k) : (left.drop limit).take (k * limit) ≠ [] := by
    have moved : 0 < k * limit := mul_pos after positive
    apply ne_nil_of_length_pos
    rw [length_take,length_drop]
    omega
  have inside (k : Nat) : k * limit < (left.drop limit).length ↔ (k+1) * limit < left.length := by
    rw [length_drop,succ_mul]
    omega
  constructor
  · intro aligned
    obtain ⟨front,last⟩ := aligned 1 one_pos (by rwa [one_mul])
    rw [one_mul] at front last
    refine ⟨front,last,fun k after short => ?_⟩
    exact (aligned_later front (filled k after)).mp (aligned (k+1) (succ_pos k) ((inside k).mp short))
  · rintro ⟨front,last,rest⟩ k after short
    obtain ⟨k,rfl⟩ := exists_eq_succ_of_ne_zero (ne_of_gt after)
    rcases Nat.eq_zero_or_pos k with rfl | later
    · rw [succ_mul,zero_mul,zero_add]; exact ⟨front,last⟩
    · exact (aligned_later front (filled k later)).mpr (rest k later ((inside k).mpr short))

theorem aligned_short (short : ¬limit < left.length) : Aligned limit left order := by
  intro k positive inside
  have least : limit ≤ k * limit := Nat.le_mul_of_pos_left limit positive
  omega

end

structure Upto (mac : Mac) (zone : Zone K) (key : GoString) (s : State) (checked left verified : List AuditEntry) : Prop where
  read : readBack zone s.rows = checked ++ left
  ends : verified.getLast? = checked.getLast?
  chain : Chain mac key [] verified

section

variable {mac : Mac} {key : GoString} {s : State} {limit now : Int}
  {checked left verified : List AuditEntry}

theorem Upto.rows (upto : Upto mac zone key s checked left verified) (member : e ∈ left) : e ∈ s.rows := by
  apply (readBack_perm zone s.rows).subset
  rw [upto.read]
  exact mem_append_right checked member

theorem Upto.named (stored : Stored mac key s) (upto : Upto mac zone key s checked left verified) :
    ∀ e ∈ checked.getLast?, e.id ≠ [] := by
  intro e last
  have inside : e ∈ readBack zone s.rows := by rw [upto.read]; exact mem_append_left left (mem_of_getLast? last)
  rw [← upto.ends] at last
  exact stored.named e ((readBack_perm zone s.rows).subset inside) (upto.chain.2 e (mem_of_getLast? last))

theorem Upto.inTime (upto : Upto mac zone key s checked left verified) : InTime zone left := by
  have read := readBack_inTime zone s.rows
  rw [upto.read] at read
  exact (pairwise_append.mp read).2.1

theorem Upto.step (upto : Upto mac zone key s checked (front ++ rest) verified)
    (chain : Chain mac key (lastSignature [] verified) page) (filled : front ≠ []) (last : page.getLast? = front.getLast?) :
    Upto mac zone key s (checked ++ front) rest (verified ++ page) where
  read := by rw [upto.read,append_assoc]
  ends := by
    have other : page ≠ [] := by rintro rfl; exact filled (getLast?_eq_none_iff.mp last.symm)
    rw [getLast?_append_of_ne_nil _ filled,getLast?_append_of_ne_nil _ other,last]
  chain := (chain_append mac).mpr ⟨upto.chain,chain⟩

def page (limit : Int) (verified left : List AuditEntry) : List AuditEntry :=
  orderTies (left.take (windowLimit limit)) (lastSignature [] verified)

theorem page_filled (verified : List AuditEntry) (more : windowLimit limit < left.length) : page limit verified left ≠ [] := by
  have positive := windowLimit_pos limit
  apply ne_nil_of_length_pos
  rw [page,(orderTies_perm _ _).length_eq,length_take]
  omega

section
variable (stored : Stored mac key s) (upto : Upto mac zone key s checked left verified)
include stored upto

theorem Upto.opens (limit now : Int) : VerifyRange mac zone s ⟨zeroTime,zeroTime,cursor verified,limit⟩ now =
      .ok (tiedResult mac zone s key (windowLimit limit) now (lastSignature [] verified) left) := by
  rw [cursor,lastSignature,upto.ends]
  exact verifyRange_read stored.on stored.filled stored.ids upto.read (upto.named stored) limit now

theorem Upto.entries (limit : Int) : windowEntries zone s limit (cursor verified) = page limit verified left := by
  have opened := window_read stored.ids upto.read (upto.named stored) limit (windowLimit limit+1)
  rw [page,windowEntries,cursor,lastSignature,upto.ends]
  rw [cursor] at opened
  rw [opened]
  simp only [take_take,min_eq_left (le_succ _)]
  rfl

section
variable (chain : Chain mac key (lastSignature [] verified) (page limit verified left))
include chain

theorem Upto.more (more : windowLimit limit < left.length) (fuel : Nat) : ∃ res, res.chainBreak = none ∧
      followWindows mac zone s limit now (fuel+1) (cursor verified) =
        .ok res :: followWindows mac zone s limit now fuel (cursor (verified ++ page limit verified left)) ∧
      checkedEntries mac zone s limit now (fuel+1) (cursor verified) = page limit verified left ++
          checkedEntries mac zone s limit now fuel (cursor (verified ++ page limit verified left)) := by
  obtain ⟨unbroken,_,next,count⟩ := tiedResult_verified zone s now stored.filled chain
  have filled := page_filled verified more
  have continues : cursor (page limit verified left) ≠ [] := by
    have last := getLast_mem filled
    rw [cursor,getLast?_eq_some_getLast filled]
    refine stored.named _ (upto.rows (mem_of_mem_take ((orderTies_perm _ _).subset last))) (chain.2 _ last)
  rw [if_pos more] at next
  rw [← page] at next count
  refine ⟨_,unbroken,?_,?_⟩
  · rw [followWindows,upto.opens stored,cursor_append filled]; simp only [next,if_neg continues]
  · rw [checkedEntries,upto.opens stored,cursor_append filled]
    simp only [next,count,upto.entries stored,if_neg continues,Int.toNat_natCast,take_length]

theorem Upto.last (now : Int) (last : ¬windowLimit limit < left.length) (fuel : Nat) :
    Covers mac zone s limit now (fuel+1) (cursor verified) (page limit verified left) := by
  obtain ⟨unbroken,complete,next,count⟩ := tiedResult_verified zone s now stored.filled chain
  rw [if_neg last] at next
  rw [decide_eq_false last,Bool.not_false] at complete
  have windows : followWindows mac zone s limit now (fuel+1) (cursor verified) =
      [.ok (tiedResult mac zone s key (windowLimit limit) now (lastSignature [] verified) left)] := by
    rw [followWindows,upto.opens stored]
    simp only [next,↓reduceIte]
  refine ⟨?_,⟨_,by rw [windows]; rfl,complete⟩,?_⟩
  · intro res member
    rw [windows,mem_singleton] at member
    cases member
    exact unbroken
  · rw [checkedEntries,upto.opens stored]
    simp only [next,count,upto.entries stored,↓reduceIte,append_nil,Int.toNat_natCast]
    exact take_length

theorem Upto.covers (more : windowLimit limit < left.length)
    (rest : Covers mac zone s limit now fuel (cursor (verified ++ page limit verified left)) order) :
    Covers mac zone s limit now (fuel+1) (cursor verified) (page limit verified left ++ order) := by
  obtain ⟨res,unbroken,windows,checked⟩ := upto.more stored chain more fuel
  obtain ⟨last,ends,complete⟩ := rest.ends
  refine ⟨?_,⟨last,?_,complete⟩,checked.trans (congrArg _ rest.checked)⟩
  · intro other member
    rw [windows] at member
    rcases mem_cons.mp member with here | later
    · cases here; exact unbroken
    · exact rest.unbroken other later
  · rw [windows,getLast?_cons,ends]; rfl

end

theorem Upto.unbroken (unbroken : Unbroken (followWindows mac zone s limit now (fuel+1) (cursor verified))) :
    Chain mac key (lastSignature [] verified) (page limit verified left) ∧ (windowLimit limit < left.length →
        Unbroken (followWindows mac zone s limit now fuel (cursor (verified ++ page limit verified left)))) := by
  have chain : Chain mac key (lastSignature [] verified) (page limit verified left) := by
    refine tiedResult_unbroken (unbroken (tiedResult mac zone s key _ now _ left) ?_)
    rw [followWindows,upto.opens stored]
    exact mem_cons_self
  refine ⟨chain,fun more res member => unbroken res ?_⟩
  obtain ⟨_,_,windows,_⟩ := upto.more stored chain more fuel
  rw [windows]
  exact mem_cons_of_mem _ member

-- A page that ends elsewhere in the chain reads rows of it again.
theorem Upto.aligned (chain : Chain mac key (lastSignature [] verified) (page limit verified left)) (more : windowLimit limit < left.length)
    (unbroken : Unbroken (followWindows mac zone s limit now (fuel+1) (cursor (verified ++ page limit verified left)))) :
    (page limit verified left).getLast? = (left.take (windowLimit limit)).getLast? := by
  have filled := page_filled verified more
  have perm : (page limit verified left).Perm (left.take (windowLimit limit)) := orderTies_perm _ _
  obtain ⟨front,back,cut⟩ := append_of_mem (perm.subset (getLast_mem filled))
  have last := getLast?_eq_some_getLast filled
  generalize (page limit verified left).getLast filled = x at cut last
  cases back with
  | nil => rw [last,cut,getLast?_append_of_ne_nil _ (cons_ne_nil x []),getLast?_singleton]
  | cons z back =>
    exfalso
    have split : left = (front ++ [x]) ++ (z :: back ++ left.drop (windowLimit limit)) := by
      conv_lhs => rw [← take_append_drop (windowLimit limit) left,cut]
      simp
    rw [split] at upto
    have again := upto.step chain (by simp) (by rw [last]; simp)
    have next := (again.unbroken stored unbroken).1
    have whole := (chain_append mac).mpr ⟨again.chain,next⟩
    refine chain_fresh whole (mem_append_right verified (perm.symm.subset (?_ : z ∈ _))) ?_
    · rw [cut]; simp
    refine (orderTies_perm _ _).symm.subset ?_
    obtain ⟨n,positive⟩ := exists_eq_succ_of_ne_zero (ne_of_gt (windowLimit_pos limit))
    rw [positive,cons_append,take_succ_cons]
    exact mem_cons_self
end

theorem unbroken_order (stored : Stored mac key s) (upto : Upto mac zone key s checked left verified)
    (enough : left.length < fuel) (unbroken : Unbroken (followWindows mac zone s limit now fuel (cursor verified))) :
    ∃ order, order.Perm left ∧ InTime zone order ∧ Chain mac key [] (verified ++ order) ∧
      Aligned (windowLimit limit) left order ∧ Covers mac zone s limit now fuel (cursor verified) order := by
  induction fuel generalizing checked left verified with
  | zero => omega
  | succ fuel ih =>
    obtain ⟨chain,later⟩ := upto.unbroken stored unbroken
    have perm : (page limit verified left).Perm (left.take (windowLimit limit)) := orderTies_perm _ _
    have inTime := upto.inTime
    have dated : InTime zone (page limit verified left) :=
      orderTies_inTime (inTime.sublist (take_sublist _ left)) _
    by_cases more : windowLimit limit < left.length
    · have positive := windowLimit_pos limit
      have shorter : (left.drop (windowLimit limit)).length < fuel := by rw [length_drop]; omega
      obtain ⟨fuel,rfl⟩ := exists_eq_succ_of_ne_zero (ne_of_gt (zero_lt_of_lt shorter))
      have last := upto.aligned stored chain more (later more)
      have parts := take_append_drop (windowLimit limit) left
      have next : Upto mac zone key s (checked ++ left.take (windowLimit limit)) (left.drop (windowLimit limit))
          (verified ++ page limit verified left) := by
        rw [← parts] at upto
        exact upto.step chain (fun empty => page_filled verified more (perm.trans (.of_eq empty)).eq_nil) last
      obtain ⟨order,same,ordered,whole,aligned,covers⟩ := ih next shorter (later more)
      refine ⟨page limit verified left ++ order,?_,?_,?_,?_,upto.covers stored chain more covers⟩
      · exact (perm.append same).trans (.of_eq parts)
      · rw [← parts] at inTime
        have cross := (pairwise_append.mp inTime).2.2
        exact pairwise_append.mpr ⟨dated,ordered,fun a inA b inB => cross a (perm.subset inA) b (same.subset inB)⟩
      · rwa [← append_assoc]
      have length : (page limit verified left).length = windowLimit limit := by
        rw [perm.length_eq,length_take]
        omega
      rw [aligned_step positive more,← length,take_left,drop_left,length]
      exact ⟨perm.symm,last.symm,aligned⟩
    · rw [take_of_length_le (Nat.le_of_not_lt more)] at perm
      exact ⟨_,perm,dated,(chain_append mac).mpr ⟨upto.chain,chain⟩,aligned_short more,upto.last stored chain now more fuel⟩

theorem aligned_covers (now : Int) (stored : Stored mac key s) (upto : Upto mac zone key s checked left verified)
    (perm : order.Perm left) (dated : InTime zone order) (chain : Chain mac key [] (verified ++ order))
    (aligned : Aligned (windowLimit limit) left order) (enough : left.length < fuel) :
    Covers mac zone s limit now fuel (cursor verified) order := by
  induction fuel generalizing checked left verified order with
  | zero => omega
  | succ fuel ih =>
    have positive := windowLimit_pos limit
    have one : OneFollower left := (chain_one_follower chain).subset fun e member =>
      mem_append_right verified (perm.symm.subset member)
    have rest := ((chain_append mac).mp chain).2
    have ordered (front : (left.take (windowLimit limit)).Perm (order.take (windowLimit limit))) :
        page limit verified left = order.take (windowLimit limit) ∧
          Chain mac key (lastSignature [] verified) (order.take (windowLimit limit)) := by
      rw [← take_append_drop (windowLimit limit) order] at rest
      have start := ((chain_append mac).mp rest).1
      refine ⟨?_,start⟩
      exact orderTies_linked front.symm (upto.inTime.sublist (take_sublist _ left))
        (dated.sublist (take_sublist _ order)) start.1 (one.subset fun e => mem_of_mem_take)
    by_cases more : windowLimit limit < left.length
    · obtain ⟨front,last,aligned⟩ := (aligned_step positive more).mp aligned
      obtain ⟨same,start⟩ := ordered front
      rw [← same] at start
      have parts := take_append_drop (windowLimit limit) order
      have shorter : (left.drop (windowLimit limit)).length < fuel := by rw [length_drop]; omega
      have split := upto
      rw [← take_append_drop (windowLimit limit) left] at split
      have next := split.step start (by
        apply ne_nil_of_length_pos
        rw [length_take]
        omega) (same ▸ last.symm)
      have behind : (order.drop (windowLimit limit)).Perm (left.drop (windowLimit limit)) := by
        rw [← parts,← take_append_drop (windowLimit limit) left] at perm
        exact (perm_behind front.symm).mp perm
      have whole : Chain mac key [] ((verified ++ page limit verified left) ++ order.drop (windowLimit limit)) := by
        rwa [same,append_assoc,parts]
      have covers := upto.covers stored start more
        (ih next behind (dated.sublist (drop_sublist _ order)) whole aligned shorter)
      rwa [same,parts] at covers
    · have all : left.take (windowLimit limit) = left := take_of_length_le (Nat.le_of_not_lt more)
      have each : order.take (windowLimit limit) = order :=
        take_of_length_le (perm.length_eq.trans_le (Nat.le_of_not_lt more))
      obtain ⟨same,start⟩ := ordered (by rw [all,each]; exact perm.symm)
      rw [← same] at start
      have covers := upto.last stored start now more fuel
      rwa [same,each] at covers

end

theorem windowLimit_inside (low : 1 ≤ limit) (high : limit ≤ (MaxVerifyLimit : Int)) : windowLimit limit = limit.toNat := by
  unfold windowLimit
  rw [if_neg (by omega)]
  omega

theorem paged_verification (mac : Mac) (zone : Zone K) (s : State) (limit now : Int) (key : GoString)
    (stored : Stored mac key s) (low : 1 ≤ limit) (high : limit ≤ (MaxVerifyLimit : Int)) :
    ((ValidLog mac zone key s.rows → Unbroken (VerifyLog mac zone s limit now) ∧
        (checkedEntries mac zone s limit now (s.rows.length+1) []).Perm s.rows ∧
        EndsComplete (VerifyLog mac zone s limit now)) ∧
      (¬ValidLog mac zone key s.rows → ∃ res, .ok res ∈ VerifyLog mac zone s limit now ∧ res.chainBreak ≠ none)) ↔
    ∀ order, ChainOrder mac zone key s.rows order → Aligned limit.toNat (readBack zone s.rows) order := by
  have read := readBack_perm zone s.rows
  have start : Upto mac zone key s [] (readBack zone s.rows) [] := ⟨rfl,rfl,⟨trivial,by simp⟩⟩
  have enough : (readBack zone s.rows).length < s.rows.length+1 := by
    rw [read.length_eq]
    exact lt_succ_self _
  rw [← windowLimit_inside low high]
  constructor
  · rintro ⟨valid,_⟩ order chained
    obtain ⟨found,perm,_,chain,aligned,_⟩ := unbroken_order stored start enough (valid ⟨order,chained⟩).1
    have same : order = found := chain_order_unique chain chained.chain (chained.perm.trans (perm.trans read).symm)
    rwa [same]
  intro aligned
  refine ⟨?_,?_⟩
  · rintro ⟨order,chained⟩
    have covers := aligned_covers now stored start (chained.perm.trans read.symm)
      chained.inTime chained.chain (aligned order chained) enough
    refine ⟨covers.unbroken,?_,covers.ends⟩
    exact (List.Perm.of_eq covers.checked).trans chained.perm
  · intro invalid
    by_contra none
    have unbroken : Unbroken (VerifyLog mac zone s limit now) := fun res member =>
      not_not.mp fun broken => none ⟨res,member,broken⟩
    obtain ⟨found,perm,dated,chain,_,_⟩ := unbroken_order stored start enough unbroken
    exact invalid ⟨found,perm.trans read,dated,chain⟩

def tiedEntry (id : String) (timestamp : Int) (previousHash : GoString) : AuditEntry :=
  let e : AuditEntry := ⟨lit id,[],[],[],[],timestamp,[],[],previousHash⟩
  { e with signature := signEntry .transparent e (lit "k") }

def tiedLog (ids : List String) (times : List Int) : List AuditEntry :=
  (ids.zip times).foldl (fun rows d => rows ++ [tiedEntry d.1 d.2 (lastSignature [] rows)]) []
def tiedState (rows : List AuditEntry) : State := { started signingConfig 0 0 with rows := rows }

theorem verified_order (dated : rows.Pairwise fun a b => zone.column a.timestamp ≤ zone.column b.timestamp)
    (verified : VerifyChain mac rows key [] = none) : ChainOrder mac zone key rows rows :=
  ⟨.refl rows,dated,((verifyChain_none mac rows key []).mp verified).2⟩

theorem paged_verification_tie :
    Unbroken (VerifyLog .transparent civil (tiedState (tiedLog ["b","a","c","d"] [0,0,1,2])) 3 0) := by
  have chained : ChainOrder .transparent civil (lit "k") (tiedLog ["b","a","c","d"] [0,0,1,2]) (tiedLog ["b","a","c","d"] [0,0,1,2]) :=
    verified_order (by decide +kernel) (by decide +kernel)
  have stored : Stored .transparent (lit "k") (tiedState (tiedLog ["b","a","c","d"] [0,0,1,2])) := by
    have named : ∀ e ∈ tiedLog ["b","a","c","d"] [0,0,1,2], e.id ≠ [] := by decide +kernel
    exact ⟨rfl,by decide,by decide +kernel,fun e member _ => named e member⟩
  have aligned := (paged_verification .transparent civil _ 3 0 _ stored (by decide) (by decide)).mpr fun order other => by
    rw [chain_order_unique chained.chain other.chain other.perm]
    intro k positive inside
    have length : (readBack civil (tiedLog ["b","a","c","d"] [0,0,1,2])).length = 4 := by decide +kernel
    change k * 3 < (readBack civil (tiedLog ["b","a","c","d"] [0,0,1,2])).length at inside
    obtain rfl : k = 1 := by omega
    decide +kernel
  exact (aligned.1 ⟨_,chained⟩).1

-- A page ends between two entries of one time, or behind them with the larger id first.
theorem tied_pages_break :
    ValidLog .transparent civil (lit "k") (tiedLog ["b","a"] [0,0]) ∧
    (VerifyLog .transparent civil (tiedState (tiedLog ["b","a"] [0,0])) 1 0).map
      (fun r => r.toOption.map (·.chainBreak)) = [some (some ⟨0,lit "a",wrongPrevious⟩)] ∧
    ValidLog .transparent civil (lit "k") (tiedLog ["b","a","c"] [0,0,1]) ∧
    (VerifyLog .transparent civil (tiedState (tiedLog ["b","a","c"] [0,0,1])) 2 0).map
      (fun r => r.toOption.map (·.chainBreak)) = [some none,some (some ⟨0,lit "b",wrongPrevious⟩)] :=
  ⟨⟨_,verified_order (by decide +kernel) (by decide +kernel)⟩,by decide +kernel,
    ⟨_,verified_order (by decide +kernel) (by decide +kernel)⟩,by decide +kernel⟩

end Gateon.Audit
