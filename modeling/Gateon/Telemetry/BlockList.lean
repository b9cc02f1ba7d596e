import Gateon.Go.Strings
import Gateon.Lib.KeyedStore
import Gateon.Lib.Journal
import Gateon.Lib.Transition

namespace Gateon.Blocklist
open Go KeyedStore Transition Option Nat

-- A block lapses at its end; `forever` holds, `released` is a release of this node.
def released : Int := 0
def forever : Int := -1

def active (ends now : Int) : Bool :=
  if ends = released then false else if ends = forever then true else decide (now < ends)

@[simp]
theorem active_released : active released now = false := rfl

theorem active_block (holds : active ends now) : ends ≠ released := by
  rintro rfl
  cases holds

structure Bounds where
  entries : Nat
  keyBytes : Nat
  edits : Nat

-- `written` says which of the table's writes made the row.
structure Block (K : Type) where
  key : K
  ends : Int
  written : Nat
  deriving DecidableEq

structure Edit (K : Type) where
  key : K
  ends : Int
  seq : Nat
  deriving DecidableEq

abbrev Blocks (K : Type) := Store (Block.key : Block K → K)
abbrev Edits (K : Type) := Store (Edit.key : Edit K → K)

section
variable {K A : Type} [DecidableEq K] [DecidableEq A]

-- One kind's half of a view: the addresses' or the keys'.
structure Shelf (K : Type) where
  base : Blocks K
  edits : Edits K
  complete : Bool

def Shelf.empty : Shelf K := ⟨Store.empty,Store.empty,false⟩

section
variable (v : Shelf K)

def Shelf.blocked (now : Int) (k : K) : Bool :=
  match v.edits.get k with
  | some e => active e.ends now
  | none =>
    match v.base.get k with
    | some b => active b.ends now
    | none => false

def Shelf.has : Bool := !v.base.rows.isEmpty || !v.edits.rows.isEmpty

def Shelf.ends (k : K) : Int :=
  match v.edits.get k with
  | some e => e.ends
  | none => ((v.base.get k).map Block.ends).getD released

theorem Shelf.blocked_eq (now : Int) (k : K) : v.blocked now k = active (v.ends k) now := by
  unfold blocked ends
  cases v.edits.get k with
  | some e => rfl
  | none => cases v.base.get k <;> rfl

end

variable {v : Shelf K}

theorem Shelf.ends_edit (held : v.edits.get k = some e) : v.ends k = e.ends := by
  simp [ends,held]

theorem Shelf.ends_base (free : v.edits.get k = none) : v.ends k = ((v.base.get k).map Block.ends).getD released := by
  simp [ends,free]

structure Marks where
  seq : Nat
  discardBefore : Nat

def Shelf.fits (bounds : Bounds) (v : Shelf K) (k : K) : Bool :=
  (v.edits.get k).isSome || decide (v.edits.rows.length < bounds.edits)

-- With the edits full a block is left to lookups, a release applied to the base.
def noteEdit (bounds : Bounds) (m : Marks) (v : Shelf K) (k : K) (ends : Int) : Marks × Shelf K :=
  if v.fits bounds k then (m,{v with edits := v.edits.put ⟨k,ends,m.seq⟩})
  else if ends ≠ released then (m,v)
  else ({m with discardBefore := m.seq},{v with base := v.base.remove k})

def note (bounds : Bounds) (skipped : K → Bool) (m : Marks) (v : Shelf K) (k : K) (ends : Int) : Marks × Shelf K :=
  if skipped k then (m,v) else noteEdit bounds {m with seq := m.seq+1} v k ends

theorem Shelf.ends_put_same (v : Shelf K) (e : Edit K) : ({v with edits := v.edits.put e} : Shelf K).ends e.key = e.ends :=
  Shelf.ends_edit (get_put_same e)

theorem Shelf.ends_put_other (apart : k ≠ e.key) : ({v with edits := v.edits.put e} : Shelf K).ends k = v.ends k := by
  unfold Shelf.ends
  rw [get_put_other _ _ apart]

theorem Shelf.ends_remove_same (free : v.edits.get k = none) :
    ({v with base := v.base.remove k} : Shelf K).ends k = released := by
  unfold Shelf.ends
  rw [free,get_remove_same]
  rfl

theorem Shelf.ends_remove_other (apart : other ≠ k) : ({v with base := v.base.remove k} : Shelf K).ends other = v.ends other := by
  unfold Shelf.ends
  rw [get_remove_other apart]

theorem Shelf.not_fits (full : v.fits bounds k = false) : v.edits.get k = none := by
  simpa using (Bool.or_eq_false_iff.mp full).1

theorem noteEdit_same (decides : v.fits bounds k ∨ ends = released) : (noteEdit bounds m v k ends).2.ends k = ends := by
  unfold noteEdit
  by_cases fits : v.fits bounds k
  · rw [if_pos fits]; exact v.ends_put_same ⟨k,ends,m.seq⟩
  · have release := decides.resolve_left fits
    rw [if_neg fits,if_neg (not_not.mpr release)]
    exact (Shelf.ends_remove_same (Shelf.not_fits (by simpa using fits))).trans release.symm

theorem noteEdit_other (apart : other ≠ k) : (noteEdit bounds m v k ends).2.ends other = v.ends other := by
  unfold noteEdit
  split
  · exact Shelf.ends_put_other (e := ⟨k,ends,m.seq⟩) apart
  · split
    · rfl
    · exact Shelf.ends_remove_other apart

theorem noteEdit_left (full : v.fits bounds k = false) (block : ends ≠ released) : noteEdit bounds m v k ends = (m,v) := by
  simp [noteEdit,full,block]

section
variable (bounds : Bounds) (m : Marks) (v : Shelf K) (k : K) (ends : Int)

theorem noteEdit_seq : (noteEdit bounds m v k ends).1.seq = m.seq := by
  unfold noteEdit
  split
  · rfl
  · split <;> rfl

theorem noteEdit_discard : (noteEdit bounds m v k ends).1.discardBefore =
      if v.fits bounds k = false ∧ ends = released then m.seq else m.discardBefore := by
  unfold noteEdit
  by_cases fits : v.fits bounds k <;> by_cases release : ends = released <;> simp [fits,release]

end

theorem noteEdit_edits (mem : e ∈ (noteEdit bounds m v k ends).2.edits.rows) :
    v.fits bounds k ∧ e = ⟨k,ends,m.seq⟩ ∨ e ∈ v.edits.rows ∧ e.key ≠ k := by
  by_cases fits : v.fits bounds k
  · rw [noteEdit,if_pos fits] at mem; exact (mem_put.mp mem).imp_left fun new => ⟨fits,new⟩
  have held : e ∈ v.edits.rows := by
    rw [noteEdit,if_neg fits] at mem
    split at mem <;> exact mem
  exact .inr ⟨held,get_eq_none.mp (Shelf.not_fits (by simpa using fits)) e held⟩

theorem noteEdit_new (fits : v.fits bounds k) : (⟨k,ends,m.seq⟩ : Edit K) ∈ (noteEdit bounds m v k ends).2.edits.rows := by
  rw [noteEdit,if_pos fits]
  exact mem_put.mpr (.inl rfl)

theorem noteEdit_held (held : e ∈ v.edits.rows) : ∃ f ∈ (noteEdit bounds m v k ends).2.edits.rows, f.key = e.key := by
  by_cases fits : v.fits bounds k
  · by_cases same : e.key = k
    · exact ⟨_,noteEdit_new fits,same.symm⟩
    · rw [noteEdit,if_pos fits]; exact ⟨e,mem_put.mpr (.inr ⟨held,same⟩),rfl⟩
  · rw [noteEdit,if_neg fits]; split <;> exact ⟨e,held,rfl⟩

section
variable (bounds : Bounds) (m : Marks) (v : Shelf K) (k : K) (ends : Int)

theorem noteEdit_edits_length
    (small : v.edits.rows.length ≤ bounds.edits) : (noteEdit bounds m v k ends).2.edits.rows.length ≤ bounds.edits := by
  unfold noteEdit
  split
  · rename_i fits
    rcases Bool.or_eq_true_iff.mp fits with held | room
    · exact (length_put_held (⟨k,ends,m.seq⟩ : Edit K) held).trans small
    · exact (length_put_le v.edits (⟨k,ends,m.seq⟩ : Edit K)).trans (of_decide_eq_true room)
  · split <;> exact small

theorem noteEdit_base_length : (noteEdit bounds m v k ends).2.base.rows.length ≤ v.base.rows.length := by
  unfold noteEdit
  split
  · rfl
  · split
    · rfl
    · exact length_remove_le v.base k

end

structure Read (K : Type) where
  blocks : Blocks K
  truncated : Bool

def Read.empty : Read K := ⟨Store.empty,false⟩
def Read.ends (r : Read K) (k : K) : Int := ((r.blocks.get k).map Block.ends).getD released
def Read.blocked (r : Read K) (now : Int) (k : K) : Bool := active (r.ends k) now

section
variable (bounds : Bounds) (skipped : K → Bool)

def Read.add (r : Read K) (b : Block K) : Read K × Bool :=
  if bounds.entries ≤ r.blocks.rows.length then ({r with truncated := true},false)
  else if skipped b.key then ({r with truncated := true},true)
  else ({r with blocks := r.blocks.put b},true)

def Read.cut (r : Read K) (missed : Bool) : Read K := {r with truncated := r.truncated || missed}

def readInto (r : Read K) : List (Block K) → Read K
  | [] => r
  | b :: rest => if (r.add bounds skipped b).2 then readInto (r.add bounds skipped b).1 rest else (r.add bounds skipped b).1

end

theorem readInto_mem {bounds : Bounds} {skipped : K → Bool} {r : Read K} {listed : List (Block K)}
    (mem : b ∈ (readInto bounds skipped r listed).blocks.rows) : b ∈ r.blocks.rows ∨ b ∈ listed := by
  induction listed generalizing r with
  | nil => exact .inl mem
  | cons first rest ih =>
    have added : ∀ b ∈ (r.add bounds skipped first).1.blocks.rows, b ∈ r.blocks.rows ∨ b = first := by
      intro b inside
      unfold Read.add at inside
      split at inside
      · exact .inl inside
      · split at inside
        · exact .inl inside
        · exact (mem_put.mp inside).symm.imp_left And.left
    unfold readInto at mem
    split at mem
    · rcases ih mem with before | later
      · exact (added b before).imp_right fun same => List.mem_cons.mpr (.inl same)
      · exact .inr (.tail _ later)
    · exact (added b mem).imp_right fun same => List.mem_cons.mpr (.inl same)

theorem readInto_length (listed : List (Block K))
    (small : r.blocks.rows.length ≤ bounds.entries) : (readInto bounds skipped r listed).blocks.rows.length ≤ bounds.entries := by
  induction listed generalizing r with
  | nil => exact small
  | cons first rest ih =>
    have added : (r.add bounds skipped first).1.blocks.rows.length ≤ bounds.entries := by
      unfold Read.add
      split
      · exact small
      rename_i room
      split
      · exact small
      · exact (length_put_le r.blocks first).trans (Nat.lt_of_not_le room)
    unfold readInto
    split
    · exact ih added
    · exact added

def Shelf.replaced (v : Shelf K) (token : Nat) (r : Read K) : Shelf K :=
  ⟨r.blocks,v.edits.filter fun e => decide (token < e.seq),!r.truncated⟩

theorem Shelf.replaced_read (free : (v.replaced token r).edits.get k = none) :
    (v.replaced token r).ends k = r.ends k := Shelf.ends_base free

theorem Shelf.replaced_kept (kept : (v.replaced token r).edits.get k = some e) :
    e ∈ v.edits.rows ∧ e.key = k ∧ token < e.seq := by
  obtain ⟨mem,same⟩ := get_eq_some.mp kept
  obtain ⟨old,new⟩ := mem_filter.mp mem
  exact ⟨old,same,of_decide_eq_true new⟩

theorem Shelf.replaced_dropped (free : (v.replaced token r).edits.get k = none) :
    ∀ e ∈ v.edits.rows, e.key = k → e.seq ≤ token := by
  intro e mem same
  refine Nat.not_lt.mp fun new => ?_
  exact get_eq_none.mp free e (mem_filter.mpr ⟨mem,decide_eq_true new⟩) same

structure BlockList (A : Type) where
  marks : Marks
  addrs : Shelf A
  keys : Shelf GoString

def BlockList.new : BlockList A := ⟨⟨0,0⟩,Shelf.empty,Shelf.empty⟩
def noAddress (_ : A) : Bool := false
def overlong (bounds : Bounds) (key : GoString) : Bool := decide (bounds.keyBytes < key.length)
def BlockList.addressBlocked (l : BlockList A) (now : Int) (a : A) : Bool := l.addrs.blocked now a
def BlockList.keyBlocked (l : BlockList A) (now : Int) (key : GoString) : Bool := l.keys.blocked now key

def BlockList.noteAddress (bounds : Bounds) (l : BlockList A) (a : A) (ends : Int) : BlockList A :=
  let next := note bounds noAddress l.marks l.addrs a ends
  {l with marks := next.1, addrs := next.2}

def BlockList.noteKey (bounds : Bounds) (l : BlockList A) (key : GoString) (ends : Int) : BlockList A :=
  let next := note bounds (overlong bounds) l.marks l.keys key ends
  {l with marks := next.1, keys := next.2}

def BlockList.begin (l : BlockList A) : Nat := l.marks.seq

structure Base (A : Type) where
  addrs : Read A
  keys : Read GoString

def BlockList.replace (l : BlockList A) (token : Nat) (b : Base A) : BlockList A × Bool :=
  if token < l.marks.discardBefore then (l,false)
  else (⟨l.marks,l.addrs.replaced token b.addrs,l.keys.replaced token b.keys⟩,true)

end

-- Its place among the writes, whether it had room, the database write it follows.
structure Note (K : Type) where
  key : K
  ends : Int
  seq : Nat
  fits : Bool
  written : Nat
  deriving DecidableEq

def Block.asNote (w : Block K) (seq : Nat) (fits : Bool) : Note K := ⟨w.key,w.ends,seq,fits,w.written⟩
def Note.effect (n : Note K) : Option Int := if n.fits ∨ n.ends = released then some n.ends else none

theorem Note.effect_fits {n : Note K} (fits : n.fits) : n.effect = some n.ends := if_pos (.inl fits)
theorem Note.effect_release {n : Note K} (release : n.ends = released) : n.effect = some n.ends := if_pos (.inr release)

variable {K A : Type} [DecidableEq K] [DecidableEq A]

-- The table by last writes, writes not yet noted, the notes, and the two reads.
structure Ledger (K : Type) where
  rows : Blocks K
  pending : List (Block K)
  notes : List (Note K)
  found : Option (Read K)
  last : Read K

def Ledger.empty : Ledger K := ⟨Store.empty,[],[],none,Read.empty⟩

inductive Act (K : Type) where
  | write (k : K) (ends : Int) (noted : Option Int)
  | note (i : Nat)
  -- Rows in force, in any order and as many as the limit and scans let through.
  | read (now : Int) (listed : List (Block K)) (missed : Bool)

inductive Event (A : Type) where
  | address (a : Act A)
  | key (a : Act GoString)
  | begin
  | replace
  | fail

structure Process (A : Type) where
  list : BlockList A
  writes : Nat
  token : Option Nat
  shown : Nat
  addrs : Ledger A
  keys : Ledger GoString

def Process.start : Process A := ⟨BlockList.new,0,none,0,Ledger.empty,Ledger.empty⟩
def Agree (ends : Int) (noted : Option Int) : Prop := ∀ e ∈ noted, e = released ↔ ends = released

instance (ends : Int) (noted : Option Int) : Decidable (Agree ends noted) :=
  match noted with
  | none => isTrue nofun
  | some e => decidable_of_iff (e = released ↔ ends = released) ⟨fun same _ mem => some.inj mem ▸ same,fun all => all e rfl⟩

def Ledger.write (g : Ledger K) (written : Nat) (k : K) (ends : Int) (noted : Option Int) : Ledger K :=
  {g with rows := g.rows.put ⟨k,ends,written⟩, pending := (noted.map fun e => ⟨k,e,written⟩).toList ++ g.pending}

section
variable (bounds : Bounds) (skipped : K → Bool)

def Ledger.noted (seq : Nat) (v : Shelf K) (g : Ledger K) (i : Nat) (w : Block K) : Ledger K :=
  {g with
    pending := g.pending.eraseIdx i
    notes := if skipped w.key then g.notes else w.asNote (seq+1) (v.fits bounds w.key) :: g.notes}

def Ledger.Answers (g : Ledger K) (now : Int) (listed : List (Block K)) : Prop :=
  ∀ b ∈ listed, b ∈ g.rows.rows ∧ active b.ends now

instance (g : Ledger K) (now : Int) (listed : List (Block K)) : Decidable (g.Answers now listed) :=
  inferInstanceAs (Decidable (∀ b ∈ listed, b ∈ g.rows.rows ∧ active b.ends now = true))

def Ledger.reads (g : Ledger K) (listed : List (Block K)) (missed : Bool) : Ledger K :=
  {g with found := some ((readInto bounds skipped Read.empty listed).cut missed)}

end

def Ledger.closed (g : Ledger K) : Ledger K := {g with found := none}
def Ledger.shows (g : Ledger K) (r : Read K) : Ledger K := {g with found := none, last := r}

def Process.replaced (s : Process A) (token : Nat) (b : Base A) : Process A :=
  let next := s.list.replace token b
  if next.2 then ⟨next.1,s.writes,none,token,s.addrs.shows b.addrs,s.keys.shows b.keys⟩
  else ⟨next.1,s.writes,none,s.shown,s.addrs.closed,s.keys.closed⟩

def step (bounds : Bounds) (s : Process A) : Event A → Option (Process A)
  | .address (.write k ends noted) =>
    if Agree ends noted then some {s with writes := s.writes+1, addrs := s.addrs.write (s.writes+1) k ends noted} else none
  | .address (.note i) => s.addrs.pending[i]?.map fun w =>
    {s with
      list := s.list.noteAddress bounds w.key w.ends
      addrs := s.addrs.noted bounds noAddress s.list.marks.seq s.list.addrs i w}
  | .address (.read now listed missed) =>
    if s.token.isSome ∧ s.addrs.found.isNone ∧ s.addrs.Answers now listed then
      some {s with addrs := s.addrs.reads bounds noAddress listed missed}
    else none
  | .key (.write k ends noted) =>
    if Agree ends noted then some {s with writes := s.writes+1, keys := s.keys.write (s.writes+1) k ends noted} else none
  | .key (.note i) => s.keys.pending[i]?.map fun w =>
    {s with
      list := s.list.noteKey bounds w.key w.ends
      keys := s.keys.noted bounds (overlong bounds) s.list.marks.seq s.list.keys i w}
  | .key (.read now listed missed) =>
    if s.addrs.found.isSome ∧ s.keys.found.isNone ∧ s.keys.Answers now listed then
      some {s with keys := s.keys.reads bounds (overlong bounds) listed missed}
    else none
  | .begin => if s.token.isNone then some {s with token := some s.list.begin, addrs := s.addrs.closed, keys := s.keys.closed} else none
  | .replace =>
    match s.token,s.addrs.found,s.keys.found with
    | some token,some addrs,some keys => some (s.replaced token ⟨addrs,keys⟩)
    | _,_,_ => none
  | .fail => if s.token.isSome then some {s with token := none, addrs := s.addrs.closed, keys := s.keys.closed} else none

def Ledger.ends (g : Ledger K) (shown : Nat) (k : K) : Int :=
  Journal.replay Note.key Note.seq Note.effect shown (g.last.ends k) k g.notes

-- An edit is its key's newest note, and the shelf answers as the notes do.
structure Shelved (bounds : Bounds) (m : Marks) (shown : Nat) (v : Shelf K) (g : Ledger K) : Prop where
  ordered : g.notes.Pairwise fun later earlier => earlier.seq < later.seq
  counted : ∀ n ∈ g.notes, n.seq ≤ m.seq
  edited : ∀ e ∈ v.edits.rows,
    ∃ n ∈ g.notes, n.effect = some e.ends ∧ n.key = e.key ∧ n.seq = e.seq ∧ ∀ m ∈ g.notes, m.key = e.key → m.seq ≤ e.seq
  held : ∀ n ∈ g.notes, n.fits → shown < n.seq → ∃ e ∈ v.edits.rows, e.key = n.key
  lifted : ∀ n ∈ g.notes, n.fits = false → n.ends = released → n.seq ≤ m.discardBefore
  exact : ∀ k, v.ends k = g.ends shown k
  editsSmall : v.edits.rows.length ≤ bounds.edits
  baseSmall : v.base.rows.length ≤ bounds.entries

theorem Shelved.count {g : Ledger K} (h : Shelved bounds m shown v g) (seq : m.seq ≤ m'.seq)
    (discard : m.discardBefore ≤ m'.discardBefore) : Shelved bounds m' shown v g :=
  {h with
    counted := fun n mem => (h.counted n mem).trans seq
    lifted := fun n mem full release => (h.lifted n mem full release).trans discard}

theorem Shelved.noteEdit_exact {g g' : Ledger K} (h : Shelved bounds m shown v g) (begun : shown ≤ m.seq) (w : Block K)
    (notes : g'.notes = w.asNote (m.seq+1) (v.fits bounds w.key) :: g.notes) (last : g'.last = g.last) (k : K) :
    (noteEdit bounds {m with seq := m.seq+1} v w.key w.ends).2.ends k = g'.ends shown k := by
  unfold Ledger.ends
  rw [notes,last]
  by_cases same : (w.asNote (m.seq+1) (v.fits bounds w.key)).key = k
  · subst same
    by_cases decides : v.fits bounds w.key ∨ w.ends = released
    · have sets : (w.asNote (m.seq+1) (v.fits bounds w.key)).effect = some w.ends := if_pos decides
      have new : shown < (w.asNote (m.seq+1) (v.fits bounds w.key)).seq := lt_succ_of_le begun
      exact (noteEdit_same decides).trans (Journal.replay_sets rfl new sets).symm
    · obtain ⟨full,block⟩ := not_or.mp decides
      have silent : (w.asNote (m.seq+1) (v.fits bounds w.key)).effect = none := if_neg decides
      rw [Journal.replay_silent silent,noteEdit_left (by simpa using full) block]
      exact h.exact w.key
  · rw [Journal.replay_other same]; exact (noteEdit_other (Ne.symm same)).trans (h.exact k)

theorem Shelved.noteEdit (h : Shelved bounds m shown v g) (behind : m.discardBefore ≤ m.seq) (begun : shown ≤ m.seq)
    (w : Block K) (taken : skipped w.key = false) :
    let next := noteEdit bounds {m with seq := m.seq+1} v w.key w.ends
    Shelved bounds next.1 shown next.2 (g.noted bounds skipped m.seq v i w) := by
  intro next
  have seq : next.1.seq = m.seq+1 := noteEdit_seq ..
  have notes : (g.noted bounds skipped m.seq v i w).notes = w.asNote (m.seq+1) (v.fits bounds w.key) :: g.notes := by
    simp [Ledger.noted,taken]
  refine ⟨?_,?_,?_,?_,?_,?_,noteEdit_edits_length _ _ _ _ _ h.editsSmall,?_⟩
  · rw [notes]; exact .cons (fun n mem => lt_succ_of_le (h.counted n mem)) h.ordered
  · rw [notes]; exact List.forall_mem_cons.mpr ⟨seq.ge,fun n old => (h.counted n old).trans (seq ▸ le_succ _)⟩
  · rw [notes]
    intro e mem
    rcases noteEdit_edits mem with ⟨fits,rfl⟩ | ⟨old,apart⟩
    · refine ⟨_,.head _,Note.effect_fits fits,rfl,rfl,?_⟩
      intro n inside _
      rcases List.mem_cons.mp inside with rfl | before
      · exact le_rfl
      · exact (h.counted n before).trans (le_succ _)
    · obtain ⟨n,inside,sets,same,at_,newest⟩ := h.edited e old
      refine ⟨n,.tail _ inside,sets,same,at_,?_⟩
      intro n inside same
      rcases List.mem_cons.mp inside with rfl | before
      · exact absurd same.symm apart
      · exact newest n before same
  · rw [notes]
    intro n mem fits new
    rcases List.mem_cons.mp mem with rfl | old
    · exact ⟨_,noteEdit_new fits,rfl⟩
    · obtain ⟨e,held,same⟩ := h.held n old fits new
      obtain ⟨f,still,samer⟩ := noteEdit_held held
      exact ⟨f,still,samer.trans same⟩
  · rw [notes,noteEdit_discard]
    intro n mem full release
    rcases List.mem_cons.mp mem with rfl | old
    · rw [if_pos ⟨full,release⟩]; exact le_rfl
    have before := h.lifted n old full release
    split
    · exact before.trans (behind.trans (le_succ _))
    · exact before
  · exact h.noteEdit_exact begun w notes rfl
  · exact (noteEdit_base_length ..).trans h.baseSmall

theorem Shelved.note (h : Shelved bounds m shown v g) (behind : m.discardBefore ≤ m.seq) (begun : shown ≤ m.seq) (i : Nat) (w : Block K) :
    Shelved bounds (note bounds skipped m v w.key w.ends).1 shown (note bounds skipped m v w.key w.ends).2
      (g.noted bounds skipped m.seq v i w) := by
  unfold Blocklist.note
  by_cases skip : skipped w.key
  · have notes : (g.noted bounds skipped m.seq v i w).notes = g.notes := if_pos skip
    rw [if_pos skip]
    refine ⟨notes ▸ h.ordered,notes ▸ h.counted,notes ▸ h.edited,notes ▸ h.held,notes ▸ h.lifted,?_,h.editsSmall,h.baseSmall⟩
    intro k
    unfold Ledger.ends
    rw [notes]
    exact h.exact k
  · rw [if_neg skip]; exact h.noteEdit behind begun w (by simpa using skip)

theorem Shelved.settled {v : Shelf K} (h : Shelved bounds m shown v g) (applies : m.discardBefore ≤ token)
    (begun : shown ≤ token) (free : (v.replaced token r).edits.get k = none) (mem : n ∈ g.notes) (same : n.key = k)
    (sets : n.effect = some x) : n.seq ≤ token := by
  refine not_lt.mp fun new => ?_
  cases fits : n.fits with
  | true =>
    obtain ⟨e,held,key⟩ := h.held n mem fits (begun.trans_lt new)
    obtain ⟨_,_,_,_,_,newest⟩ := h.edited e held
    have dropped := Shelf.replaced_dropped free e held (key.trans same)
    exact absurd (newest n mem key.symm) (by omega)
  | false =>
    have release : n.ends = released := by
      unfold Note.effect at sets
      split at sets
      · rename_i either; exact either.resolve_left (by simp [fits])
      · cases sets
    exact absurd (h.lifted n mem fits release) (by omega)

theorem Shelved.replaced {v : Shelf K} (h : Shelved bounds m shown v g) (applies : m.discardBefore ≤ token)
    (begun : shown ≤ token) (small : r.blocks.rows.length ≤ bounds.entries) :
    Shelved bounds m token (v.replaced token r) (g.shows r) := by
  refine ⟨h.ordered,h.counted,?_,?_,h.lifted,?_,(length_filter_le ..).trans h.editsSmall,small⟩
  · exact fun e mem => h.edited e (mem_filter.mp mem).1
  · intro n mem fits new
    obtain ⟨e,held,key⟩ := h.held n mem fits (begun.trans_lt new)
    obtain ⟨_,_,_,_,_,newest⟩ := h.edited e held
    exact ⟨e,mem_filter.mpr ⟨held,decide_eq_true (new.trans_le (newest n mem key.symm))⟩,key⟩
  intro k
  cases kept : (v.replaced token r).edits.get k with
  | some e =>
    obtain ⟨old,same,new⟩ := Shelf.replaced_kept kept
    obtain ⟨n,mem,sets,key,seq,newest⟩ := h.edited e old
    rw [Shelf.ends_edit kept,← same,← key]
    refine Eq.symm (Journal.replay_after (P := (· = e.ends)) h.ordered mem (seq ▸ new) sets rfl ?_)
    intro later inside also after
    exact absurd (newest later inside (also.trans key)) (by omega)
  | none =>
    rw [Shelf.replaced_read kept]
    refine (Journal.replay_start ?_).symm
    intro n mem same new
    cases sets : n.effect with
    | none => rfl
    | some x => exact absurd (h.settled applies begun kept mem same sets) (by omega)

-- A write is in the table, or a later one is.
def Behind (rows : Blocks K) (k : K) (ends : Int) (written : Nat) : Prop :=
  ∃ row, rows.get k = some row ∧ written ≤ row.written ∧ (written = row.written → (ends = released ↔ row.ends = released))

theorem Behind.put {rows : Blocks K} (h : Behind rows k ends written) (stamped : ∀ row ∈ rows.rows, row.written ≤ writes)
    (new : Block K) (later : new.written = writes+1) : Behind (rows.put new) k ends written := by
  obtain ⟨row,found,before,same⟩ := h
  have old := stamped row (get_eq_some.mp found).1
  by_cases key : k = new.key
  · subst key; exact ⟨new,get_put_same new,by omega,fun equal => absurd equal (by omega)⟩
  · exact ⟨row,(get_put_other rows new key).trans found,before,same⟩

-- A row of the read's time, no earlier than a write noted before it began.
structure Drawn (bounds : Bounds) (token : Nat) (g : Ledger K) (r : Read K) : Prop where
  small : r.blocks.rows.length ≤ bounds.entries
  present : ∀ b ∈ r.blocks.rows, ∃ row, g.rows.get b.key = some row ∧ b.written ≤ row.written ∧
    (b.written = row.written → b = row)
  after : ∀ b ∈ r.blocks.rows, ∀ n ∈ g.notes, n.key = b.key → n.seq ≤ token → n.written ≤ b.written
  fresh : ∀ b ∈ r.blocks.rows, ∀ n ∈ g.notes, n.key = b.key → n.ends = released → n.seq ≤ token → n.written < b.written

structure Recorded (bounds : Bounds) (writes : Nat) (token : Option Nat) (shown : Nat) (g : Ledger K) : Prop where
  stamped : ∀ row ∈ g.rows.rows, row.written ≤ writes
  pending : ∀ w ∈ g.pending, Behind g.rows w.key w.ends w.written
  taken : ∀ n ∈ g.notes, Behind g.rows n.key n.ends n.written
  drawn : ∀ r, g.found = some r → ∀ t, token = some t → Drawn bounds t g r
  shows : Drawn bounds shown g g.last

theorem Drawn.write {g : Ledger K} (h : Drawn bounds token g r) (stamped : ∀ row ∈ g.rows.rows, row.written ≤ writes) :
    Drawn bounds token (g.write (writes+1) k ends noted) r := by
  refine {h with present := ?_}
  intro b mem
  obtain ⟨row,held,before,same⟩ := h.present b mem
  have old := stamped row (get_eq_some.mp held).1
  by_cases key : b.key = k
  · subst key
    have later : b.written < writes+1 := by omega
    exact ⟨⟨b.key,ends,writes+1⟩,get_put_same (⟨b.key,ends,writes+1⟩ : Block K),later.le,fun equal => absurd equal later.ne⟩
  · exact ⟨row,(get_put_other g.rows ⟨k,ends,writes+1⟩ key).trans held,before,same⟩

theorem Ledger.mem_noted {g : Ledger K} (mem : n ∈ (g.noted bounds skipped seq v i w).notes) :
    n = w.asNote (seq+1) (v.fits bounds w.key) ∨ n ∈ g.notes := by
  unfold Ledger.noted at mem
  split at mem
  · exact .inr mem
  · exact List.mem_cons.mp mem

theorem Drawn.note {g : Ledger K} {v : Shelf K} (h : Drawn bounds token g r) (begun : token ≤ seq) :
    Drawn bounds token (g.noted bounds skipped seq v i w) r := by
  have old : ∀ n ∈ (g.noted bounds skipped seq v i w).notes, n.seq ≤ token → n ∈ g.notes := by
    intro n inside before
    rcases Ledger.mem_noted inside with rfl | old
    · have count : seq+1 ≤ token := before; omega
    · exact old
  exact ⟨h.small,h.present,fun b mem n inside same before => h.after b mem n (old n inside before) same before,
    fun b mem n inside same release before => h.fresh b mem n (old n inside before) same release before⟩

section
variable {g : Ledger K} (h : Recorded bounds writes token shown g)
include h

theorem Recorded.count (more : writes ≤ writes') : Recorded bounds writes' token shown g :=
  {h with stamped := fun row mem => (h.stamped row mem).trans more}

theorem Recorded.write (k : K) (agree : Agree ends noted) : Recorded bounds (writes+1) token shown (g.write (writes+1) k ends noted) := by
  have keeps : ∀ k' ends' written', Behind g.rows k' ends' written' →
      Behind (g.write (writes+1) k ends noted).rows k' ends' written' :=
    fun _ _ _ behind => behind.put h.stamped ⟨k,ends,writes+1⟩ rfl
  refine ⟨?_,?_,fun n mem => keeps _ _ _ (h.taken n mem),fun r found t reading => (h.drawn r found t reading).write h.stamped,
    h.shows.write h.stamped⟩
  · intro row mem
    rcases mem_put.mp mem with rfl | ⟨old,_⟩
    · exact le_rfl
    · exact (h.stamped row old).trans (le_succ _)
  · intro w mem
    rcases List.mem_append.mp mem with new | old
    · obtain ⟨e,own,rfl⟩ := map_eq_some_iff.mp (mem_toList.mp new)
      exact ⟨⟨k,ends,writes+1⟩,get_put_same (⟨k,ends,writes+1⟩ : Block K),le_rfl,fun _ => agree e own⟩
    · exact keeps _ _ _ (h.pending w old)

theorem Recorded.note (begun : ∀ t, token = some t → t ≤ seq) (counted : shown ≤ seq) (v : Shelf K) (waits : g.pending[i]? = some w) :
    Recorded bounds writes token shown (g.noted bounds skipped seq v i w) := by
  refine ⟨h.stamped,fun w mem => h.pending w (List.mem_of_mem_eraseIdx mem),?_,
    fun r found t reading => (h.drawn r found t reading).note (begun t reading),h.shows.note counted⟩
  intro n mem
  rcases Ledger.mem_noted mem with rfl | old
  · exact h.pending w (List.mem_of_getElem? waits)
  · exact h.taken n old

theorem Recorded.reads (answers : g.Answers now listed)
    (missed : Bool) : Recorded bounds writes token shown (g.reads bounds skipped listed missed) := by
  have drawn : ∀ b ∈ (readInto bounds skipped Read.empty listed).blocks.rows, b ∈ listed :=
    fun b mem => (readInto_mem mem).resolve_left List.not_mem_nil
  refine {h with drawn := ?_,shows := ⟨h.shows.small,h.shows.present,h.shows.after,h.shows.fresh⟩}
  intro r found t _
  cases found
  have row : ∀ b ∈ (readInto bounds skipped Read.empty listed).blocks.rows, g.rows.get b.key = some b :=
    fun b mem => get_eq_some.mpr ⟨(answers b (drawn b mem)).1,rfl⟩
  have least : ∀ b ∈ (readInto bounds skipped Read.empty listed).blocks.rows, ∀ n ∈ g.notes, n.key = b.key →
      n.written ≤ b.written ∧ (n.written = b.written → (n.ends = released ↔ b.ends = released)) := by
    intro b mem n inside same
    obtain ⟨found,held,before⟩ := h.taken n inside
    cases (same ▸ row b mem).symm.trans held
    exact before
  refine ⟨readInto_length listed (zero_le _),fun b mem => ⟨b,row b mem,le_rfl,fun _ => rfl⟩,
    fun b mem n inside same _ => (least b mem n inside same).1,?_⟩
  intro b mem n inside same release _
  obtain ⟨before,agree⟩ := least b mem n inside same
  refine lt_of_le_of_ne before fun equal => ?_
  exact active_block (answers b (drawn b mem)).2 ((agree equal).mp release)

theorem Recorded.closed : Recorded bounds writes token' shown g.closed :=
  {h with drawn := nofun,shows := ⟨h.shows.small,h.shows.present,h.shows.after,h.shows.fresh⟩}

end

theorem Recorded.applied {g : Ledger K} (h : Recorded bounds writes token earlier g) (drawn : Drawn bounds t g r) :
    Recorded bounds writes token' t (g.shows r) :=
  {h with drawn := nofun,shows := ⟨drawn.small,drawn.present,drawn.after,drawn.fresh⟩}

-- A noted release gives way only to a later write of its key.
structure Upholds (bounds : Bounds) (shown : Nat) (v : Shelf K) (g : Ledger K) : Prop where
  release : ∀ n ∈ g.notes, n.ends = released → (∀ m ∈ g.notes, m.key = n.key → m.effect ≠ none → m.seq ≤ n.seq) →
    ∀ now, v.blocked now n.key → ∃ row, g.rows.get n.key = some row ∧ n.written < row.written
  newest : ∀ n ∈ g.notes, n.fits → shown < n.seq → (∀ m ∈ g.notes, m.key = n.key → m.seq ≤ n.seq) →
    ∀ now, v.blocked now n.key = active n.ends now
  -- A block that the last applied read confirmed stands as that read has it.
  answered : ∀ k, (∀ m ∈ g.notes, m.key = k → m.effect ≠ none → m.seq ≤ shown) → ∀ now, v.blocked now k = g.last.blocked now k
  edits : v.edits.rows.length ≤ bounds.edits
  base : v.base.rows.length ≤ bounds.entries

theorem Shelved.answered {v : Shelf K} (h : Shelved bounds m shown v g)
    (early : ∀ n ∈ g.notes, n.key = k → n.effect ≠ none → n.seq ≤ shown) : v.ends k = g.last.ends k := by
  rw [h.exact]
  refine Journal.replay_start ?_
  intro later inside same after
  refine Classical.byContradiction fun decides => ?_
  exact absurd (early later inside same decides) (by omega)

theorem Shelved.upholds {v : Shelf K} (h : Shelved bounds m shown v g) (r : Recorded bounds writes token shown g) :
    Upholds bounds shown v g := by
  refine ⟨?_,?_,?_,h.editsSmall,h.baseSmall⟩
  · intro n mem release last now blocked
    rw [Shelf.blocked_eq] at blocked
    have sets : n.effect = some released := release ▸ Note.effect_release release
    rcases lt_or_ge shown n.seq with new | old
    · -- The release is over the last read, and nothing is over the release.
      have lifted : g.ends shown n.key = released := by
        refine Journal.replay_after (P := (· = released)) h.ordered mem new sets rfl ?_
        intro later inside same after v' decides
        exact absurd (last later inside same (by simp [decides])) (by omega)
      rw [h.exact,lifted] at blocked
      cases blocked
    · rw [h.answered fun later inside same decides => (last later inside same decides).trans old] at blocked
      unfold Read.ends at blocked
      cases found : g.last.blocks.get n.key with
      | none => rw [found] at blocked; cases blocked
      | some b =>
        obtain ⟨inside,same⟩ := get_eq_some.mp found
        obtain ⟨row,held,later,_⟩ := r.shows.present b inside
        exact ⟨row,same ▸ held,lt_of_lt_of_le (r.shows.fresh b inside n mem same.symm release old) later⟩
  · intro n mem fits new last now
    rw [Shelf.blocked_eq,h.exact]
    refine congrArg (active · now) (Journal.replay_after (P := (· = n.ends)) h.ordered mem new (Note.effect_fits fits) rfl ?_)
    intro later inside same after
    exact absurd (last later inside same) (by omega)
  · intro k early now
    rw [Shelf.blocked_eq,h.answered early]
    rfl

-- A key that a Replace blocks was written after each release noted before.
structure Renews (v after : Shelf K) (g : Ledger K) (r : Read K) : Prop where
  release : ∀ k now, v.blocked now k = false → after.blocked now k → ∀ n ∈ g.notes, n.key = k → n.ends = released →
    ∃ row, g.rows.get k = some row ∧ n.written < row.written
  exact : ∀ k, after.edits.get k = none → ∀ now, after.blocked now k = r.blocked now k

theorem Shelved.renews {v : Shelf K} (h : Shelved bounds m shown v g) (applies : m.discardBefore ≤ token)
    (begun : shown ≤ token) (drawn : Drawn bounds token g r) : Renews v (v.replaced token r) g r := by
  refine ⟨?_,?_⟩
  · intro k now before after n mem same release
    cases kept : (v.replaced token r).edits.get k with
    | some e =>
      obtain ⟨old,key,_⟩ := Shelf.replaced_kept kept
      rw [Shelf.blocked_eq,Shelf.ends_edit kept] at after
      rw [Shelf.blocked_eq,Shelf.ends_edit (get_eq_some.mpr ⟨old,key⟩),after] at before
      cases before
    | none =>
      have early := h.settled applies begun kept mem same (Note.effect_release release)
      rw [Shelf.blocked_eq,Shelf.replaced_read kept] at after
      unfold Read.ends at after
      cases found : r.blocks.get k with
      | none => rw [found] at after; cases after
      | some b =>
        obtain ⟨inside,key⟩ := get_eq_some.mp found
        obtain ⟨row,held,later,_⟩ := drawn.present b inside
        exact ⟨row,key ▸ held,lt_of_lt_of_le (drawn.fresh b inside n mem (same.trans key.symm) release early) later⟩
  · intro k free now
    rw [Shelf.blocked_eq,Shelf.replaced_read free]
    rfl

structure Inv (bounds : Bounds) (s : Process A) : Prop where
  behind : s.list.marks.discardBefore ≤ s.list.marks.seq
  counted : s.shown ≤ s.list.marks.seq
  begun : ∀ t, s.token = some t → s.shown ≤ t ∧ t ≤ s.list.marks.seq
  addrShelf : Shelved bounds s.list.marks s.shown s.list.addrs s.addrs
  keyShelf : Shelved bounds s.list.marks s.shown s.list.keys s.keys
  addrTable : Recorded bounds s.writes s.token s.shown s.addrs
  keyTable : Recorded bounds s.writes s.token s.shown s.keys

theorem shelved_empty : Shelved bounds m shown (Shelf.empty : Shelf K) Ledger.empty := by
  refine ⟨.nil,?_,?_,?_,?_,fun _ => rfl,zero_le _,zero_le _⟩ <;> exact nofun
theorem recorded_empty : Recorded bounds writes token shown (Ledger.empty : Ledger K) := by
  refine ⟨?_,?_,?_,?_,⟨zero_le _,?_,?_,?_⟩⟩ <;> exact nofun
theorem start_inv : Inv bounds (Process.start : Process A) :=
  ⟨le_rfl,le_rfl,nofun,shelved_empty,shelved_empty,recorded_empty,recorded_empty⟩

theorem note_marks (bounds : Bounds) (skipped : K → Bool) (m : Marks) (v : Shelf K) (k : K) (ends : Int)
    (behind : m.discardBefore ≤ m.seq) :
    let next := (note bounds skipped m v k ends).1
    m.seq ≤ next.seq ∧ m.discardBefore ≤ next.discardBefore ∧ next.discardBefore ≤ next.seq := by
  intro next
  have unfolded : next = (note bounds skipped m v k ends).1 := rfl
  unfold note at unfolded
  split at unfolded
  · rw [unfolded]; exact ⟨le_rfl,le_rfl,behind⟩
  have seq : next.seq = m.seq+1 := unfolded ▸ noteEdit_seq ..
  have discard := noteEdit_discard bounds {m with seq := m.seq+1} v k ends
  rw [← unfolded] at discard
  split at discard <;> dsimp only at discard <;> omega

theorem Inv.noteAddress {s : Process A} (h : Inv bounds s) (waits : s.addrs.pending[i]? = some w) :
    Inv bounds {s with
      list := s.list.noteAddress bounds w.key w.ends
      addrs := s.addrs.noted bounds noAddress s.list.marks.seq s.list.addrs i w} := by
  obtain ⟨seq,discard,behind⟩ := note_marks bounds noAddress s.list.marks s.list.addrs w.key w.ends h.behind
  exact ⟨behind,h.counted.trans seq,fun t reading => ⟨(h.begun t reading).1,(h.begun t reading).2.trans seq⟩,
    h.addrShelf.note h.behind h.counted i w,h.keyShelf.count seq discard,
    h.addrTable.note (fun t reading => (h.begun t reading).2) h.counted _ waits,h.keyTable⟩

theorem Inv.noteKey {s : Process A} (h : Inv bounds s) (waits : s.keys.pending[i]? = some w) :
    Inv bounds {s with
      list := s.list.noteKey bounds w.key w.ends
      keys := s.keys.noted bounds (overlong bounds) s.list.marks.seq s.list.keys i w} := by
  obtain ⟨seq,discard,behind⟩ := note_marks bounds (overlong bounds) s.list.marks s.list.keys w.key w.ends h.behind
  exact ⟨behind,h.counted.trans seq,fun t reading => ⟨(h.begun t reading).1,(h.begun t reading).2.trans seq⟩,
    h.addrShelf.count seq discard,h.keyShelf.note h.behind h.counted i w,h.addrTable,
    h.keyTable.note (fun t reading => (h.begun t reading).2) h.counted _ waits⟩

omit [DecidableEq A] in
theorem BlockList.replace_cases (l : BlockList A) (token : Nat) (b : Base A) :
    token < l.marks.discardBefore ∧ l.replace token b = (l,false) ∨ l.marks.discardBefore ≤ token ∧
      l.replace token b = (⟨l.marks,l.addrs.replaced token b.addrs,l.keys.replaced token b.keys⟩,true) := by
  rcases lt_or_ge token l.marks.discardBefore with early | applies
  · exact .inl ⟨early,if_pos early⟩
  · exact .inr ⟨applies,if_neg (not_lt.mpr applies)⟩

theorem Inv.closed {s : Process A} (h : Inv bounds s) (token : Option Nat)
    (begun : ∀ t, token = some t → s.shown ≤ t ∧ t ≤ s.list.marks.seq) :
    Inv bounds {s with token := token, addrs := s.addrs.closed, keys := s.keys.closed} :=
  ⟨h.behind,h.counted,begun,{h.addrShelf with},{h.keyShelf with},
    h.addrTable.closed,h.keyTable.closed⟩

theorem Inv.replaced {s : Process A} (h : Inv bounds s) (reading : s.token = some token) (addrs : s.addrs.found = some b.addrs)
    (keys : s.keys.found = some b.keys) : Inv bounds (s.replaced token b) := by
  unfold Process.replaced
  rcases s.list.replace_cases token b with ⟨_,same⟩ | ⟨applies,same⟩
  · simp only [same,Bool.false_eq_true,if_false]; exact h.closed none nofun
  obtain ⟨since,count⟩ := h.begun token reading
  have addrDrawn := h.addrTable.drawn _ addrs token reading
  have keyDrawn := h.keyTable.drawn _ keys token reading
  simp only [same,if_true]
  exact ⟨h.behind,count,nofun,h.addrShelf.replaced applies since addrDrawn.small,
    h.keyShelf.replaced applies since keyDrawn.small,h.addrTable.applied addrDrawn,h.keyTable.applied keyDrawn⟩

theorem step_inv {s t : Process A} (h : Inv bounds s) (ran : step bounds s e = some t) : Inv bounds t := by
  cases e with
  | address act =>
    cases act with
    | write k ends noted =>
      obtain ⟨agree,⟨⟩⟩ := ite_none_right_eq_some.mp ran
      exact {h with addrShelf := {h.addrShelf with},addrTable := h.addrTable.write k agree,keyTable := h.keyTable.count (le_succ _)}
    | note i => obtain ⟨w,waits,rfl⟩ := map_eq_some_iff.mp ran; exact h.noteAddress waits
    | read now listed missed =>
      obtain ⟨answers,⟨⟩⟩ := ite_none_right_eq_some.mp ran
      exact {h with addrShelf := {h.addrShelf with},addrTable := h.addrTable.reads answers.2.2 missed}
  | key act =>
    cases act with
    | write k ends noted =>
      obtain ⟨agree,⟨⟩⟩ := ite_none_right_eq_some.mp ran
      exact {h with keyShelf := {h.keyShelf with},addrTable := h.addrTable.count (le_succ _),keyTable := h.keyTable.write k agree}
    | note i => obtain ⟨w,waits,rfl⟩ := map_eq_some_iff.mp ran; exact h.noteKey waits
    | read now listed missed =>
      obtain ⟨answers,⟨⟩⟩ := ite_none_right_eq_some.mp ran
      exact {h with keyShelf := {h.keyShelf with},keyTable := h.keyTable.reads answers.2.2 missed}
  | begin =>
    obtain ⟨_,⟨⟩⟩ := ite_none_right_eq_some.mp ran
    refine h.closed (some s.list.begin) ?_
    rintro _ ⟨⟩
    exact ⟨h.counted,le_rfl⟩
  | replace =>
    simp only [step] at ran
    split at ran
    · rename_i token addrs keys reading foundAddrs foundKeys
      cases ran
      exact h.replaced reading foundAddrs foundKeys
    · cases ran
  | fail =>
    simp only [step] at ran
    split at ran
    · cases ran; exact h.closed none nofun
    · cases ran

structure Sound (bounds : Bounds) (s : Process A) : Prop where
  addrs : Upholds bounds s.shown s.list.addrs s.addrs
  keys : Upholds bounds s.shown s.list.keys s.keys
  replace : ∀ token a k, s.token = some token → s.addrs.found = some a → s.keys.found = some k →
    ∀ next applied, s.list.replace token ⟨a,k⟩ = (next,applied) →
      if applied then Renews s.list.addrs next.addrs s.addrs a ∧ Renews s.list.keys next.keys s.keys k else next = s.list

theorem Inv.sound {s : Process A} (h : Inv bounds s) : Sound bounds s := by
  refine ⟨h.addrShelf.upholds h.addrTable,h.keyShelf.upholds h.keyTable,?_⟩
  intro token a k reading foundAddrs foundKeys next applied ran
  obtain ⟨since,_⟩ := h.begun token reading
  rcases s.list.replace_cases token ⟨a,k⟩ with ⟨_,same⟩ | ⟨applies,same⟩
  · cases same.symm.trans ran; exact rfl
  · cases same.symm.trans ran
    exact ⟨h.addrShelf.renews applies since (h.addrTable.drawn a foundAddrs token reading),
      h.keyShelf.renews applies since (h.keyTable.drawn k foundKeys token reading)⟩

theorem list_sound (bounds : Bounds) {s : Process A} (path : Reached (step bounds) (fun _ _ => True) Process.start s) : Sound bounds s :=
  (reached_invariant (Inv bounds) start_inv (fun h _ ran => step_inv h ran) path).sound

-- A release of 2, noted with the edits full, between a read and its Replace.
def sampleEvents : List (Event Nat) :=
  [.address (.write 1 forever (some forever)),.address (.note 0),.address (.write 2 forever none),.begin,
    .address (.read 5 [⟨2,forever,2⟩,⟨1,forever,1⟩] false),.address (.write 2 released (some released)),.address (.note 0),
    .key (.read 5 [] false),.replace,.begin,.address (.read 5 [⟨1,forever,1⟩] false),.key (.read 5 [] false),.replace]

theorem list_sound_run : ∃ s, runAllowed (step ⟨2,8,1⟩) (fun _ _ => True) Process.start sampleEvents = some s ∧
    (s.shown,s.list.addressBlocked 5 1,s.list.addressBlocked 5 2) = (2,true,false) ∧ Sound ⟨2,8,1⟩ s :=
  shown_run (by decide) fun s path => list_sound ⟨2,8,1⟩ path

end Gateon.Blocklist
