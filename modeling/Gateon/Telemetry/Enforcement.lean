import Gateon.Telemetry.Shun
import Mathlib.Data.List.InsertIdx
import Mathlib.Logic.Function.Basic

namespace Gateon.Enforcement
open Blocklist KeyedStore Shun Transition Option
open Go (second minute hour)
open Function (update update_self update_of_ne)

-- A shun's end, or that there was none in an epoch.
inductive Answer where
  | shun (ends : Int)
  | notBlocked (epoch : Int)
  deriving DecidableEq

inductive Age where
  | none
  | fresh
  | stale
  deriving DecidableEq

def staleAnswerEpochs : Int := 10
def epochAge (current epoch : Int) : Age :=
  if current - epoch ≤ 1 then .fresh else if current - epoch ≤ staleAnswerEpochs then .stale else .none

def cachedIPAnswer (clock epoch : Int) : Answer → Bool × Age
  | .shun ends => if active ends clock then (true,.fresh) else (false,.none)
  | .notBlocked read => (false,epochAge epoch read)

def ipAnswerToCache (clock epoch ends : Int) : Answer := if active ends clock then .shun ends else .notBlocked epoch
def decided (epoch ends : Int) : Answer := if ends = released then .notBlocked epoch else .shun ends

-- `begun` is the number of the table's writes when the counter was loaded.
inductive Stage where
  | joined
  | loaded (since begun : Nat)
  | read (since begun : Nat) (ends : Int)
  | added (since begun : Nat) (ends : Int)
  | checked (begun : Nat) (ends : Int)
  deriving DecidableEq

structure Lookup (A : Type) where
  key : A
  stage : Stage
  deriving DecidableEq

def Stage.begun : Stage → Option Nat
  | .joined => none
  | .loaded _ begun | .read _ begun _ | .added _ begun _ | .checked begun _ => some begun

def Stage.found : Stage → Option Int
  | .joined | .loaded .. => none
  | .read _ _ ends | .added _ _ ends | .checked _ ends => some ends

inductive Left where
  | count
  | cache
  | note
  deriving DecidableEq

structure Writer (A : Type) where
  block : Block A
  left : Left
  deriving DecidableEq

section
variable {A : Type} [DecidableEq A]

-- One node, with the block list's own account of the table.
structure Process (A : Type) where
  clock : Int
  epoch : Int
  rows : A → Option Row
  writes : Nat
  cache : A → Option Answer
  gate : Store (Lookup.key : Lookup A → A)
  writers : List (Writer A)
  list : Blocklist.Process A

def Process.start (clock : Int) : Process A := ⟨clock,0,fun _ => none,0,fun _ => none,Store.empty,[],Blocklist.Process.start⟩

inductive Decision where
  | block (duration : Option Int)
  | auto (now ends : Int)
  | release

def Decision.write (clock : Int) (row : Option Row) : Decision → Option (Option Row × Int)
  | .block none => some (some (markIPMitigated row (sqlUTC clock) none),forever)
  | .block (some d) => some (some (markIPMitigated row (sqlUTC clock) (some (sqlUTC clock + d))),sqlUTC clock + d)
  | .auto now ends => (writeAutoShun row now ends).map fun r => (some r,ends)
  | .release => some (releaseIPMitigation row clock,released)

def Decision.Valid (clock : Int) : Decision → Prop
  | .block duration => ∀ d ∈ duration, 0 < d
  | .auto now ends => now ≤ clock ∧ 0 < ends ∧ second ∣ ends
  | .release => True

instance (clock : Int) : ∀ d, Decidable (Decision.Valid clock d)
  | .block duration => inferInstanceAs (Decidable (∀ d ∈ duration, 0 < d))
  | .auto now ends => inferInstanceAs (Decidable (now ≤ clock ∧ 0 < ends ∧ second ∣ ends))
  | .release => .isTrue trivial

def Decision.Whole : Decision → Prop
  | .block (some d) => second ∣ d
  | _ => True

instance : ∀ d, Decidable (Decision.Whole d)
  | .block (some d) => inferInstanceAs (Decidable (second ∣ d))
  | .block none | .auto .. | .release => .isTrue trivial

inductive Event (A : Type) where
  | tick (d : Nat)
  | nextEpoch
  | write (a : A) (d : Decision)
  | count (i : Nat)
  | cache (i : Nat)
  | note (i : Nat)
  | join (a : A)
  | advance (a : A)
  | evict (a : A)
  | refresh (e : Blocklist.Event A)

def foreign : Blocklist.Event A → Bool
  | .address (.write ..) | .address (.note _) => false
  | _ => true

namespace Process
variable (s : Process A)

def answer (a : A) (v : Option Answer) : Process A := {s with cache := update s.cache a v}
def stands (a : A) (stage : Stage) : Process A := {s with gate := s.gate.put ⟨a,stage⟩}

def advance (a : A) : Stage → Process A
  | .joined => s.stands a (.loaded s.writes s.list.writes)
  | .loaded since begun => s.stands a (.read since begun (shunEnd (s.rows a)))
  | .read since begun ends => (s.answer a (some (ipAnswerToCache s.clock s.epoch ends))).stands a (.added since begun ends)
  | .added since begun ends => (if s.writes = since then s else s.answer a none).stands a (.checked begun ends)
  | .checked .. => {s with gate := s.gate.remove a}

def moves (i : Nat) (w : Writer A) (left : Left) : Process A :=
  {s with writers := s.writers.set i ⟨w.block,left⟩}
def writer (i : Nat) (left : Left) : Option (Writer A) := s.writers[i]?.filter fun w => w.left = left
def wrote (list : Blocklist.Process A) (a : A) (row : Option Row) (ends : Int) : Process A :=
  {s with rows := update s.rows a row, list := list, writers := ⟨⟨a,ends,s.list.writes+1⟩,.count⟩ :: s.writers}

end Process

def step (bounds : Bounds) (slots : Nat) (s : Process A) : Event A → Option (Process A)
  | .tick d => some {s with clock := s.clock + d}
  | .nextEpoch => some {s with epoch := s.epoch + 1}
  | .write a d =>
    if d.Valid s.clock then
      match d.write s.clock (s.rows a) with
      | none => some s
      | some (row,ends) =>
        (Blocklist.step bounds s.list (.address (.write a (shunEnd row) (some ends)))).map fun list => s.wrote list a row ends
    else none
  | .count i => (s.writer i .count).map fun w => {s.moves i w .cache with writes := s.writes+1}
  | .cache i => (s.writer i .cache).map fun w => (s.moves i w .note).answer w.block.key (some (decided s.epoch w.block.ends))
  | .note i => (s.writer i .note).bind fun _ =>
    (Blocklist.step bounds s.list (.address (.note i))).map fun list => {s with list := list, writers := s.writers.eraseIdx i}
  | .join a => if (s.gate.get a).isNone ∧ s.gate.rows.length < slots then some (s.stands a .joined) else none
  | .advance a => (s.gate.get a).map fun l => s.advance a l.stage
  | .evict a => some (s.answer a none)
  | .refresh e => if foreign e then (Blocklist.step bounds s.list e).map fun list => {s with list := list} else none

namespace Process
variable (s : Process A)

def listed (a : A) : Bool := s.list.list.addrs.has && s.list.list.addressBlocked s.clock a

def cachedIPMitigation (a : A) : Option Bool :=
  let found := (s.cache a).map (cachedIPAnswer s.clock s.epoch)
  let blocked := (found.map Prod.fst).getD false
  match (found.map Prod.snd).getD .none with
  | .fresh => some blocked
  | .stale => if !blocked && s.listed a then some true else some blocked
  | .none => if !blocked && s.listed a then some true else none

def answers (slots : Nat) (a : A) : Bool := (s.gate.get a).isSome || decide (s.gate.rows.length < slots)

-- A request the cache cannot answer takes the answer of a lookup.
def isIPMitigated (slots : Nat) (a : A) : Bool :=
  match s.cachedIPMitigation a with
  | some blocked => blocked
  | none => s.answers slots a && active (((s.gate.get a).bind fun l => l.stage.found).getD (shunEnd (s.rows a))) s.clock

def stamp (a : A) : Nat := ((s.list.addrs.rows.get a).map Block.written).getD 0

def Quiet (a : A) : Prop :=
  (∀ w ∈ s.writers, w.block.key ≠ a) ∧
  ∀ l ∈ s.gate.rows, l.key = a → ∀ begun, l.stage.begun = some begun → s.stamp a ≤ begun

end Process

def Sound (slots : Nat) (s : Process A) : Prop :=
  ∀ a, s.Quiet a → (s.cachedIPMitigation a).isSome ∨ s.answers slots a →
    s.isIPMitigated slots a = inForce (s.rows a) s.clock

-- Writers of an address do not overlap, bounded blocks last whole seconds, the list has room.
def Careful (bounds : Bounds) (s : Process A) : Event A → Prop
  | .write a d => (∀ w ∈ s.writers, w.block.key ≠ a) ∧ d.Whole
  | .note i => ∀ w ∈ s.writers[i]?, w.block.ends = released ∨ s.list.list.addrs.fits bounds w.block.key
  | _ => True

end

section
variable {A : Type} {s : Process A}

theorem Process.writer_held (held : s.writer i left = some w) : s.writers[i]? = some w ∧ w.left = left := by
  obtain ⟨at_,kind⟩ := filter_eq_some_iff.mp held
  exact ⟨at_,of_decide_eq_true kind⟩

theorem Process.moves_other (held : s.writers[i]? = some w) (left : Left) (mem : x ∈ s.writers)
    (apart : x.block.key ≠ w.block.key) : x ∈ (s.moves i w left).writers := by
  obtain ⟨j,there⟩ := List.mem_iff_getElem?.mp mem
  have other : i ≠ j := by
    rintro rfl
    cases held.symm.trans there
    exact apart rfl
  exact List.mem_of_getElem? ((List.getElem?_set_ne other).trans there)

theorem Process.moves_mem (mem : x ∈ (s.moves i w left).writers) : x = ⟨w.block,left⟩ ∨ x ∈ s.writers :=
  (List.mem_or_eq_of_mem_set mem).symm

theorem Process.moves_new (held : s.writers[i]? = some w) (left : Left) : ⟨w.block,left⟩ ∈ (s.moves i w left).writers := by
  obtain ⟨bound,_⟩ := List.getElem?_eq_some_iff.mp held
  exact List.mem_set bound ..

end

variable {A : Type} [DecidableEq A]

theorem active_before (holds : active ends now) (earlier : clock ≤ now) : active ends clock := by
  unfold active at holds ⊢
  split
  · rename_i release
    rw [if_pos release] at holds
    exact holds
  rename_i block
  rw [if_neg block] at holds
  split
  · rfl
  · rename_i bounded
    rw [if_neg bounded] at holds
    exact decide_eq_true (earlier.trans_lt (of_decide_eq_true holds))

theorem active_lapsed (lapsed : active ends clock = false) (later : clock ≤ now) : active ends now = false := by
  cases holds : active ends now with
  | false => rfl
  | true => exact (active_before holds later).symm.trans lapsed

def Agrees (ends clock : Int) : Answer → Prop
  | .shun cached => cached = ends
  | .notBlocked _ => active ends clock = false

theorem agrees_tick (h : Agrees ends clock v) (later : clock ≤ now) : Agrees ends now v := by
  cases v with
  | shun cached => exact h
  | notBlocked epoch => exact active_lapsed h later

theorem agrees_read (ends clock epoch : Int) : Agrees ends clock (ipAnswerToCache clock epoch ends) := by
  unfold ipAnswerToCache
  split
  · exact rfl
  · rename_i lapsed; exact Bool.eq_false_iff.mpr lapsed

theorem agrees_decided (ends clock epoch : Int) : Agrees ends clock (decided epoch ends) := by
  unfold decided
  split
  · rename_i release
    subst release
    exact active_released
  · exact rfl

def Process.ends (s : Process A) (a : A) : Int := shunEnd (s.rows a)

-- It holds the row's end, or a write since will make it drop its answer.
structure Reads (s : Process A) (a : A) (since begun : Nat) (ends : Int) : Prop where
  current : s.stamp a ≤ begun → ends = s.ends a
  dropped : ends ≠ s.ends a → since < s.writes ∨ ∃ w ∈ s.writers, w.block.key = a ∧ w.left = .count

section
variable (s : Process A) (a : A)

def Fits : Stage → Prop
  | .joined => True
  | .loaded since begun => since ≤ s.writes ∧ begun ≤ s.list.writes
  | .read since begun ends | .added since begun ends => since ≤ s.writes ∧ begun ≤ s.list.writes ∧ Reads s a since begun ends
  | .checked begun ends => begun ≤ s.list.writes ∧ (s.stamp a ≤ begun → ends = s.ends a)

-- A cached answer that is not the row's is about to be replaced by a writer, or to be dropped by a lookup.
def Passing : Prop :=
  (∃ w ∈ s.writers, w.block.key = a ∧ w.left ≠ .note) ∨
  ∃ since begun ends, s.gate.get a = some ⟨a,.added since begun ends⟩ ∧ ends ≠ s.ends a ∧ since < s.writes

def Settled : Prop :=
  (s.list.addrs.rows.get a = none ∧ ∀ n ∈ s.list.addrs.notes, n.key ≠ a) ∨
  ∃ row n, s.list.addrs.rows.get a = some row ∧ n ∈ s.list.addrs.notes ∧ n.key = a ∧ n.written = row.written ∧
    n.effect = some row.ends ∧ ∀ m ∈ s.list.addrs.notes, m.key = a → m.seq ≤ n.seq

end

structure Inv (bounds : Bounds) (s : Process A) : Prop where
  time : second ≤ s.clock
  list : Blocklist.Inv bounds s.list
  table : ∀ a, s.ends a = ((s.list.addrs.rows.get a).map Block.ends).getD released
  pending : s.list.addrs.pending = s.writers.map Writer.block
  apart : (s.writers.map fun w => w.block.key).Nodup
  current : ∀ w ∈ s.writers, s.list.addrs.rows.get w.block.key = some w.block
  settled : ∀ a, (∀ w ∈ s.writers, w.block.key ≠ a) → Settled s a
  lookups : ∀ l ∈ s.gate.rows, Fits s l.key l.stage
  cached : ∀ a v, s.cache a = some v → Agrees (s.ends a) s.clock v ∨ Passing s a

variable {s : Process A}

theorem Inv.listed (h : Inv bounds s) (quiet : ∀ w ∈ s.writers, w.block.key ≠ a)
    (blocks : active (s.list.list.addrs.ends a) now) : active (s.ends a) now := by
  rw [h.list.addrShelf.exact] at blocks
  have table := h.table a
  have drawn := h.list.addrTable.shows
  have read (reads : s.list.addrs.ends s.list.shown a = s.list.addrs.last.ends a) :
      ∃ b, s.list.addrs.last.blocks.get a = some b ∧ active b.ends now := by
    rw [reads] at blocks
    unfold Read.ends at blocks
    cases found : s.list.addrs.last.blocks.get a with
    | none => rw [found] at blocks; cases blocks
    | some b => rw [found] at blocks; exact ⟨b,rfl,blocks⟩
  rcases h.settled a quiet with ⟨free,unnoted⟩ | ⟨row,n,held,mem,key,written,sets,newest⟩
  · obtain ⟨b,found,_⟩ := read (Journal.replay_start fun n mem same => absurd same (unnoted n mem))
    obtain ⟨inside,same⟩ := get_eq_some.mp found
    obtain ⟨row,held,_⟩ := drawn.present b inside
    rw [same,free] at held
    cases held
  rw [table,held]
  rcases Nat.lt_or_ge s.list.shown n.seq with new | old
  · have decides : s.list.addrs.ends s.list.shown a = row.ends := by
      subst key
      refine Journal.replay_after (P := (· = row.ends)) h.list.addrShelf.ordered mem new sets rfl ?_
      intro later inside same after
      exact absurd (newest later inside same) (by omega)
    rwa [decides] at blocks
  · obtain ⟨b,found,on⟩ := read (Journal.replay_start fun later inside same after =>
      absurd (newest later inside same) (by omega))
    obtain ⟨inside,same⟩ := get_eq_some.mp found
    obtain ⟨other,at_,before,equal⟩ := drawn.present b inside
    cases (same ▸ held).symm.trans at_
    have after := drawn.after b inside n mem (key.trans same.symm) old
    cases equal (by omega)
    exact on

theorem Process.listed_active (listed : s.listed a) : active (s.list.list.addrs.ends a) s.clock := by
  rw [← Shelf.blocked_eq]
  exact (Bool.and_eq_true_iff.mp listed).2

theorem Inv.agrees (h : Inv bounds s) (quiet : s.Quiet a) (held : s.cache a = some v) : Agrees (s.ends a) s.clock v := by
  rcases h.cached a v held with agrees | ⟨w,mem,key,_⟩ | ⟨since,begun,ends,gate,stale,_⟩
  · exact agrees
  · exact absurd key (quiet.1 w mem)
  · have inside := (get_eq_some.mp gate).1
    have fits : Fits s a (.added since begun ends) := h.lookups _ inside
    exact absurd (fits.2.2.current (quiet.2 _ inside rfl begun rfl)) stale

theorem Inv.decides (h : Inv bounds s) (quiet : s.Quiet a) (cached : s.cachedIPMitigation a = some blocked) :
    blocked = active (s.ends a) s.clock := by
  have listed : s.listed a → active (s.ends a) s.clock :=
    fun listed => h.listed quiet.1 (Process.listed_active listed)
  unfold Process.cachedIPMitigation at cached
  cases held : s.cache a with
  | none =>
    simp only [held,map_none,getD_none,Bool.not_false,Bool.true_and] at cached
    obtain ⟨on,⟨⟩⟩ := ite_none_right_eq_some.mp cached
    exact (listed on).symm
  | some v =>
    have agrees := h.agrees quiet held
    simp only [held,map_some,getD_some] at cached
    cases v with
    | shun ends =>
      cases agrees
      cases force : active (s.ends a) s.clock with
      | true => simp only [cachedIPAnswer,force,if_true] at cached; exact (some.inj cached).symm
      | false =>
        simp only [cachedIPAnswer,force,Bool.false_eq_true,if_false,Bool.not_false,Bool.true_and] at cached
        obtain ⟨on,⟨⟩⟩ := ite_none_right_eq_some.mp cached
        exact (listed on).symm.trans force
    | notBlocked epoch =>
      have lapsed : active (s.ends a) s.clock = false := agrees
      have off : s.listed a = false := by
        cases on : s.listed a with
        | false => rfl
        | true => exact (listed on).symm.trans lapsed
      simp only [cachedIPAnswer,off,Bool.and_false,Bool.false_eq_true,if_false] at cached
      split at cached <;> simp_all

theorem Inv.sound (h : Inv bounds s) : Sound slots s := by
  intro a quiet can
  have row : active (s.ends a) s.clock = inForce (s.rows a) s.clock := by
    have time := h.time
    exact active_shunEnd _ (by unfold second at time; omega)
  unfold Process.isIPMitigated
  rw [← row]
  cases cached : s.cachedIPMitigation a with
  | some blocked => exact h.decides quiet cached
  | none =>
    have answers : s.answers slots a := can.resolve_left (by simp [cached])
    have found : ((s.gate.get a).bind fun l => l.stage.found).getD (shunEnd (s.rows a)) = s.ends a := by
      cases gate : s.gate.get a with
      | none => rfl
      | some l =>
        obtain ⟨inside,rfl⟩ := get_eq_some.mp gate
        have fits := h.lookups l inside
        have later := quiet.2 l inside rfl
        obtain ⟨a,stage⟩ := l
        cases stage with
        | joined | loaded => rfl
        | read since begun ends | added since begun ends => exact fits.2.2.current (later begun rfl)
        | checked begun ends => exact fits.2 (later begun rfl)
    simp only [answers,found,Bool.true_and]

theorem Fits.mono (h : Fits s a stage) (stamp : t.stamp a = s.stamp a) (ends : t.ends a = s.ends a)
    (writes : s.writes ≤ t.writes) (table : s.list.writes ≤ t.list.writes) (counting : ∀ w ∈ s.writers, w.block.key = a → w.left = .count →
      s.writes < t.writes ∨ ∃ w ∈ t.writers, w.block.key = a ∧ w.left = .count) : Fits t a stage := by
  have keeps : ∀ {since begun found}, since ≤ s.writes → Reads s a since begun found → Reads t a since begun found := by
    intro since begun found loaded reads
    refine ⟨fun early => ends ▸ reads.current (stamp ▸ early),fun stale => ?_⟩
    rcases reads.dropped (ends ▸ stale) with counted | ⟨w,mem,key,left⟩
    · exact .inl (counted.trans_le writes)
    · exact (counting w mem key left).imp_left (Nat.lt_of_le_of_lt loaded)
  cases stage with
  | joined => trivial
  | loaded since begun => exact ⟨h.1.trans writes,h.2.trans table⟩
  | read since begun found | added since begun found => exact ⟨h.1.trans writes,h.2.1.trans table,keeps h.1 h.2.2⟩
  | checked begun found => exact ⟨h.1.trans table,fun early => ends ▸ h.2 (stamp ▸ early)⟩

theorem Fits.overtaken (h : Fits s a stage) (stamp : s.list.writes < t.stamp a) (writes : s.writes ≤ t.writes)
    (table : s.list.writes ≤ t.list.writes) (counting : ∃ w ∈ t.writers, w.block.key = a ∧ w.left = .count) : Fits t a stage := by
  have keeps : ∀ {since begun found}, begun ≤ s.list.writes → Reads t a since begun found :=
    fun early => ⟨fun late => absurd late (by omega),fun _ => .inr counting⟩
  cases stage with
  | joined => trivial
  | loaded since begun => exact ⟨h.1.trans writes,h.2.trans table⟩
  | read since begun found | added since begun found => exact ⟨h.1.trans writes,h.2.1.trans table,keeps h.2.1⟩
  | checked begun found => exact ⟨h.1.trans table,fun late => absurd late (Nat.not_le.mpr (Nat.lt_of_le_of_lt h.1 stamp))⟩

theorem Passing.mono (h : Passing s a) (ends : t.ends a = s.ends a) (writes : s.writes ≤ t.writes) (gate : t.gate.get a = s.gate.get a)
    (writers : ∀ w ∈ s.writers, w.block.key = a → w.left ≠ .note → ∃ w ∈ t.writers, w.block.key = a ∧ w.left ≠ .note) :
    Passing t a := by
  rcases h with ⟨w,mem,key,left⟩ | ⟨since,begun,found,held,stale,counted⟩
  · exact .inl (writers w mem key left)
  · exact .inr ⟨since,begun,found,gate.trans held,ends ▸ stale,counted.trans_le writes⟩

theorem Fits.frame (h : Fits s a stage) (rows : t.rows = s.rows) (writes : t.writes = s.writes)
    (writers : t.writers = s.writers) (list : t.list = s.list) : Fits t a stage := by
  have stamp : t.stamp a = s.stamp a := by unfold Process.stamp; rw [list]
  have ends : t.ends a = s.ends a := by unfold Process.ends; rw [rows]
  refine h.mono stamp ends writes.ge (congrArg _ list).ge ?_
  intro w mem key left
  exact .inr ⟨w,writers ▸ mem,key,left⟩

theorem Inv.tick (h : Inv bounds s) (d : Nat) : Inv bounds {s with clock := s.clock + d} := by
  have later : s.clock ≤ s.clock + d := by omega
  refine {h with time := h.time.trans later,lookups := ?_,cached := ?_}
  · exact fun l mem => (h.lookups l mem).frame rfl rfl rfl rfl
  · exact fun a v held => (h.cached a v held).imp_left fun agrees => agrees_tick agrees later

theorem Inv.nextEpoch (h : Inv bounds s) : Inv bounds {s with epoch := s.epoch + 1} :=
  {h with lookups := fun l mem => (h.lookups l mem).frame rfl rfl rfl rfl}

theorem Inv.answer (h : Inv bounds s) (a : A) (v : Option Answer)
    (right : ∀ x, v = some x → Agrees (s.ends a) s.clock x ∨ Passing s a) : Inv bounds (s.answer a v) := by
  refine {h with lookups := ?_,cached := ?_}
  · exact fun l mem => (h.lookups l mem).frame rfl rfl rfl rfl
  intro b x (held : update s.cache a v b = some x)
  by_cases same : b = a
  · subst same; rw [update_self] at held; exact right x held
  · rw [update_of_ne same] at held; exact h.cached b x held

theorem foreign_step {s t : Blocklist.Process A} (apart : foreign e) (ran : Blocklist.step bounds s e = some t) :
    t.addrs.rows = s.addrs.rows ∧ t.addrs.pending = s.addrs.pending ∧ t.addrs.notes = s.addrs.notes ∧ s.writes ≤ t.writes := by
  cases e with
  | address act =>
    cases act with
    | write k ends noted | note i => cases apart
    | read now listed missed => obtain ⟨_,⟨⟩⟩ := ite_none_right_eq_some.mp ran; exact ⟨rfl,rfl,rfl,le_rfl⟩
  | key act =>
    cases act with
    | write k ends noted => obtain ⟨_,⟨⟩⟩ := ite_none_right_eq_some.mp ran; exact ⟨rfl,rfl,rfl,Nat.le_succ _⟩
    | note i => obtain ⟨w,_,rfl⟩ := map_eq_some_iff.mp ran; exact ⟨rfl,rfl,rfl,le_rfl⟩
    | read now listed missed => obtain ⟨_,⟨⟩⟩ := ite_none_right_eq_some.mp ran; exact ⟨rfl,rfl,rfl,le_rfl⟩
  | begin | fail => obtain ⟨_,⟨⟩⟩ := ite_none_right_eq_some.mp ran; exact ⟨rfl,rfl,rfl,le_rfl⟩
  | replace =>
    simp only [Blocklist.step] at ran
    split at ran
    · cases ran
      unfold Blocklist.Process.replaced
      dsimp only
      split <;> exact ⟨rfl,rfl,rfl,le_rfl⟩
    · cases ran

theorem Inv.refresh {next : Blocklist.Process A} (h : Inv bounds s) (apart : foreign e)
    (ran : Blocklist.step bounds s.list e = some next) : Inv bounds {s with list := next} := by
  obtain ⟨rows,pending,notes,writes⟩ := foreign_step apart ran
  refine ⟨h.time,Blocklist.step_inv h.list ran,?_,pending.trans h.pending,h.apart,?_,?_,?_,h.cached⟩
  · exact fun a => (h.table a).trans (by rw [rows])
  · exact fun w mem => (congrArg (Store.get · _) rows).trans (h.current w mem)
  · intro a quiet
    have settled := h.settled a quiet
    unfold Settled at settled ⊢
    rwa [rows,notes]
  · intro l mem
    refine (h.lookups l mem).mono ?_ rfl le_rfl writes fun w mem key left => .inr ⟨w,mem,key,left⟩
    unfold Process.stamp
    rw [rows]

theorem Decision.write_ends {d : Decision} (time : second ≤ clock) (valid : d.Valid clock)
    (whole : d.Whole) (writes : d.write clock row = some (next,ends)) : shunEnd next = ends := by
  cases d with
  | block duration =>
    cases duration with
    | none => cases writes; rfl
    | some d =>
      cases writes
      have lasts : 0 < d := valid d rfl
      have now : 0 ≤ sqlUTC clock := by unfold sqlUTC second at *; omega
      have stored : sqlUTC (sqlUTC clock + d) = sqlUTC clock + d := sqlUTC_whole (Int.dvd_add (sqlUTC_dvd clock) whole)
      show max 1 (sqlUTC (sqlUTC clock + d)) = sqlUTC clock + d
      rw [stored]
      omega
  | auto now ends =>
    obtain ⟨r,lands,same⟩ := map_eq_some_iff.mp writes
    cases same
    obtain ⟨_,⟨⟩⟩ := ite_none_left_eq_some.mp lands
    show max 1 (sqlUTC ends) = ends
    rw [sqlUTC_whole valid.2.2]
    have after := valid.2.1
    omega
  | release => cases writes; cases row <;> rfl

theorem Process.wrote_ends (apart : b ≠ a) : (s.wrote next a row noted).ends b = s.ends b :=
  congrArg shunEnd (update_of_ne apart _ _)

theorem Inv.wrote {next : Blocklist.Process A} (h : Inv bounds s) (free : ∀ w ∈ s.writers, w.block.key ≠ a)
    (same : shunEnd row = ends) (ran : Blocklist.step bounds s.list (.address (.write a (shunEnd row) (some ends))) = some next) :
    Inv bounds (s.wrote next a row ends) := by
  have inv := Blocklist.step_inv h.list ran
  obtain ⟨_,⟨⟩⟩ := ite_none_right_eq_some.mp ran
  subst same
  have here : (s.list.addrs.rows.put ⟨a,shunEnd row,s.list.writes+1⟩).get a = some ⟨a,shunEnd row,s.list.writes+1⟩ :=
    get_put_same (⟨a,shunEnd row,s.list.writes+1⟩ : Block A)
  have there : ∀ b, b ≠ a → (s.list.addrs.rows.put ⟨a,shunEnd row,s.list.writes+1⟩).get b = s.list.addrs.rows.get b :=
    fun b apart => get_put_other s.list.addrs.rows ⟨a,shunEnd row,s.list.writes+1⟩ apart
  refine ⟨h.time,inv,?_,?_,?_,?_,?_,?_,?_⟩
  · intro b
    by_cases key : b = a
    · subst key
      show shunEnd (update s.rows b row b) = ((Store.get _ b).map Block.ends).getD released
      rw [update_self]
      exact (congrArg (fun r => (Option.map Block.ends r).getD released) here).symm
    · show shunEnd (update s.rows a row b) = ((Store.get _ b).map Block.ends).getD released
      rw [update_of_ne key]
      exact (h.table b).trans (congrArg (fun r => (Option.map Block.ends r).getD released) (there b key)).symm
  · exact congrArg (List.cons _) h.pending
  · refine List.nodup_cons.mpr ⟨?_,h.apart⟩
    intro again
    obtain ⟨w,mem,key⟩ := List.mem_map.mp again
    exact free w mem key
  · rintro w (_ | ⟨_,mem⟩)
    · exact here
    · exact (there _ (free w mem)).trans (h.current w mem)
  · intro b quiet
    have key : b ≠ a := fun same => quiet _ (.head _) same.symm
    have settled := h.settled b fun w mem => quiet w (.tail _ mem)
    unfold Settled at settled ⊢
    dsimp only [Process.wrote,Ledger.write]
    rwa [there b key]
  · intro l mem
    by_cases key : l.key = a
    · refine (h.lookups l mem).overtaken ?_ le_rfl (Nat.le_succ _) ⟨_,.head _,key.symm,rfl⟩
      rw [key]
      exact (congrArg (fun r => (Option.map Block.written r).getD 0) here).ge
    · refine (h.lookups l mem).mono ?_ ?_ le_rfl (Nat.le_succ _) fun w mem key left => .inr ⟨w,.tail _ mem,key,left⟩
      · exact congrArg (fun r => (Option.map Block.written r).getD 0) (there _ key)
      · exact Process.wrote_ends key
  · intro b v held
    by_cases key : b = a
    · subst key; exact .inr (.inl ⟨_,.head _,rfl,by simp⟩)
    · refine (h.cached b v held).imp (fun agrees => ?_) fun passing => ?_
      · rw [Process.wrote_ends key]; exact agrees
      · exact passing.mono (Process.wrote_ends key) le_rfl rfl fun w mem key left => ⟨w,.tail _ mem,key,left⟩

theorem map_set_same {f : α → β} {xs : List α} (held : xs[i]? = some x) (same : f y = f x) : (xs.set i y).map f = xs.map f := by
  obtain ⟨bound,rfl⟩ := List.getElem?_eq_some_iff.mp held
  rw [List.map_set,same,← List.getElem_map f,List.set_getElem_self]
  simpa using bound

theorem Inv.only (h : Inv bounds s) (one : x ∈ s.writers) (two : y ∈ s.writers) (same : x.block.key = y.block.key) :
    x = y := List.inj_on_of_nodup_map h.apart one two same

theorem Inv.moves (h : Inv bounds s) (held : s.writers[i]? = some w) (left : Left) (writes : s.writes ≤ count)
    (counting : w.left = .count → s.writes < count) (cached : ∀ v, s.cache w.block.key = some v → Agrees (s.ends w.block.key) s.clock v ∨
      Passing {s.moves i w left with writes := count} w.block.key) :
    Inv bounds {s.moves i w left with writes := count} := by
  have mem := List.mem_of_getElem? held
  have keys : (s.writers.set i ⟨w.block,left⟩).map Writer.block = s.writers.map Writer.block := map_set_same held rfl
  refine ⟨h.time,h.list,h.table,h.pending.trans keys.symm,?_,?_,?_,?_,?_⟩
  · have names := congrArg (List.map Block.key) keys
    rw [List.map_map,List.map_map] at names
    exact names ▸ h.apart
  · intro x inside
    rcases Process.moves_mem inside with rfl | old
    · exact h.current w mem
    · exact h.current x old
  · intro a quiet
    refine h.settled a fun x inside => ?_
    by_cases same : x.block.key = w.block.key
    · rw [h.only inside mem same]; exact quiet ⟨w.block,left⟩ (Process.moves_new held left)
    · exact quiet x (Process.moves_other held left inside same)
  · intro l inside
    refine (h.lookups l inside).mono rfl rfl writes le_rfl ?_
    intro x writer key stage
    by_cases same : x.block.key = w.block.key
    · cases h.only writer mem same; exact .inl (counting stage)
    · exact .inr ⟨x,Process.moves_other held left writer same,key,stage⟩
  · intro a v inside
    by_cases same : a = w.block.key
    · subst same; exact cached v inside
    · refine (h.cached a v inside).imp_right fun passing => passing.mono rfl writes rfl ?_
      intro x writer key stage
      exact ⟨x,Process.moves_other held left writer (key ▸ same),key,stage⟩

theorem Inv.count (h : Inv bounds s) (held : s.writers[i]? = some w) :
    Inv bounds {s.moves i w .cache with writes := s.writes+1} := by
  refine h.moves held .cache (Nat.le_succ _) (fun _ => Nat.lt_succ_self _) fun _ _ => ?_
  exact .inr (.inl ⟨_,Process.moves_new held .cache,rfl,nofun⟩)

theorem Inv.cache (h : Inv bounds s) (held : s.writers[i]? = some w) (left : w.left = .cache) :
    Inv bounds ((s.moves i w .note).answer w.block.key (some (decided s.epoch w.block.ends))) := by
  have mem := List.mem_of_getElem? held
  have row : s.ends w.block.key = w.block.ends := by rw [h.table,h.current w mem]; rfl
  have answered := h.answer w.block.key (some (decided s.epoch w.block.ends)) fun x new => .inl (by
    cases new
    exact row ▸ agrees_decided ..)
  refine answered.moves held .note (Nat.le_refl s.writes) (fun no => by rw [left] at no; cases no) ?_
  intro v inside
  cases (update_self ..).symm.trans inside
  exact .inl (row ▸ agrees_decided ..)

theorem mem_eraseIdx {xs : List α} (held : xs[i]? = some x) (mem : y ∈ xs) (apart : y ≠ x) : y ∈ xs.eraseIdx i := by
  obtain ⟨j,there⟩ := List.mem_iff_getElem?.mp mem
  refine List.mem_eraseIdx_iff_getElem?.mpr ⟨j,?_,there⟩
  rintro rfl
  exact apart (some.inj (there.symm.trans held))

theorem Inv.note {next : Blocklist.Process A} (h : Inv bounds s) (held : s.writers[i]? = some w) (left : w.left = .note)
    (fits : w.block.ends = released ∨ s.list.list.addrs.fits bounds w.block.key)
    (ran : Blocklist.step bounds s.list (.address (.note i)) = some next) :
    Inv bounds {s with list := next, writers := s.writers.eraseIdx i} := by
  have inv := Blocklist.step_inv h.list ran
  have mem := List.mem_of_getElem? held
  have waits : s.list.addrs.pending[i]? = some w.block := by rw [h.pending,List.getElem?_map,held]; rfl
  have others : ∀ x ∈ s.writers, x.left ≠ .note → x ∈ s.writers.eraseIdx i :=
    fun x inside apart => mem_eraseIdx held inside fun same => apart (same ▸ left)
  obtain ⟨b,at_,rfl⟩ := map_eq_some_iff.mp ran
  cases at_.symm.trans waits
  refine ⟨h.time,inv,h.table,?_,?_,?_,?_,?_,?_⟩
  · show s.list.addrs.pending.eraseIdx i = (s.writers.eraseIdx i).map Writer.block
    rw [h.pending,List.eraseIdx_map]
  · exact h.apart.sublist ((List.eraseIdx_sublist ..).map _)
  · exact fun x inside => h.current x (List.mem_of_mem_eraseIdx inside)
  · intro a quiet
    by_cases same : a = w.block.key
    · subst same
      refine .inr ⟨w.block,w.block.asNote (s.list.list.marks.seq+1) (s.list.list.addrs.fits bounds w.block.key),
        h.current w mem,.head _,rfl,rfl,if_pos fits.symm,?_⟩
      rintro m (_ | ⟨_,old⟩) _
      · exact le_rfl
      · exact (h.list.addrShelf.counted m old).trans (Nat.le_succ _)
    have before := h.settled a fun x inside => by
      by_cases one : x = w
      · exact one ▸ Ne.symm same
      · exact quiet x (mem_eraseIdx held inside one)
    rcases before with ⟨free,unnoted⟩ | ⟨row,n,at_,noted,key,written,sets,newest⟩
    · refine .inl ⟨free,?_⟩
      rintro m (_ | ⟨_,old⟩)
      · exact Ne.symm same
      · exact unnoted m old
    · refine .inr ⟨row,n,at_,.tail _ noted,key,written,sets,?_⟩
      rintro m (_ | ⟨_,old⟩) own
      · exact absurd own.symm same
      · exact newest m old own
  · intro l inside
    refine (h.lookups l inside).mono rfl rfl le_rfl le_rfl ?_
    intro x writer key stage
    exact .inr ⟨x,others x writer (by rw [stage]; exact nofun),key,stage⟩
  · intro a v inside
    refine (h.cached a v inside).imp_right fun passing => passing.mono rfl le_rfl rfl ?_
    exact fun x writer key stage => ⟨x,others x writer stage,key,stage⟩

theorem Inv.stands (h : Inv bounds s) (a : A) (fits : Fits s a stage)
    (cached : ∀ v since begun found, s.gate.get a = some ⟨a,.added since begun found⟩ → since < s.writes →
      s.cache a = some v → False) : Inv bounds (s.stands a stage) := by
  refine {h with lookups := ?_,cached := ?_}
  · intro l inside
    rcases mem_put.mp inside with rfl | ⟨old,_⟩
    · exact fits.frame rfl rfl rfl rfl
    · exact (h.lookups l old).frame rfl rfl rfl rfl
  intro b v held
  refine (h.cached b v held).imp_right fun passing => ?_
  by_cases same : b = a
  · subst same
    rcases passing with writer | ⟨since,begun,found,at_,_,counted⟩
    · exact .inl writer
    · exact (cached v since begun found at_ counted held).elim
  · exact passing.mono rfl le_rfl (get_put_other s.gate ⟨a,stage⟩ same) fun x writer key left => ⟨x,writer,key,left⟩

theorem Inv.leaves (h : Inv bounds s) (held : s.gate.get a = some ⟨a,.checked begun found⟩) :
    Inv bounds {s with gate := s.gate.remove a} := by
  refine {h with lookups := ?_,cached := ?_}
  · exact fun l inside => (h.lookups l (mem_remove.mp inside).1).frame rfl rfl rfl rfl
  intro b v inside
  refine (h.cached b v inside).imp_right fun passing => ?_
  by_cases same : b = a
  · subst same
    rcases passing with writer | ⟨since,begun,found,at_,_⟩
    · exact .inl writer
    · cases held.symm.trans at_
  · exact passing.mono rfl le_rfl (get_remove_other same) fun x writer key left => ⟨x,writer,key,left⟩

theorem Inv.advance (h : Inv bounds s) (held : s.gate.get a = some l) : Inv bounds (s.advance a l.stage) := by
  obtain ⟨inside,rfl⟩ := get_eq_some.mp held
  have fits := h.lookups l inside
  obtain ⟨a,stage⟩ := l
  cases stage with
  | joined =>
    refine h.stands a ⟨le_rfl,le_rfl⟩ ?_
    intro _ _ _ _ at_
    cases held.symm.trans at_
  | loaded since begun =>
    refine h.stands a ⟨fits.1,fits.2,fun _ => rfl,fun stale => absurd rfl stale⟩ ?_
    intro _ _ _ _ at_
    cases held.symm.trans at_
  | read since begun found =>
    have stands : Inv bounds (s.stands a (.added since begun found)) := h.stands a fits (by
      intro _ _ _ _ at_
      cases held.symm.trans at_)
    refine stands.answer a (some (ipAnswerToCache s.clock s.epoch found)) ?_
    rintro _ ⟨⟩
    by_cases same : found = s.ends a
    · subst same; exact .inl (agrees_read ..)
    · rcases fits.2.2.dropped same with counted | ⟨w,mem,key,left⟩
      · exact .inr (.inr ⟨since,begun,found,get_put_same (⟨a,.added since begun found⟩ : Lookup A),same,counted⟩)
      · exact .inr (.inl ⟨w,mem,key,by rw [left]; exact nofun⟩)
  | added since begun found =>
    simp only [Process.advance]
    split
    · rename_i unchanged
      refine h.stands a ⟨fits.2.1,fits.2.2.current⟩ ?_
      intro _ _ _ _ at_ counted
      cases held.symm.trans at_
      omega
    · have dropped : Inv bounds (s.answer a none) := h.answer a none nofun
      refine dropped.stands a ⟨fits.2.1,fits.2.2.current⟩ ?_
      intro _ _ _ _ _ _ cached
      cases (update_self ..).symm.trans cached
  | checked begun found => exact h.leaves held

theorem step_inv (h : Inv bounds s) (meets : Careful bounds s e) (ran : step bounds slots s e = some t) :
    Inv bounds t := by
  cases e with
  | tick d => cases ran; exact h.tick d
  | nextEpoch => cases ran; exact h.nextEpoch
  | write a d =>
    obtain ⟨valid,ran⟩ := ite_none_right_eq_some.mp ran
    split at ran
    · cases ran; exact h
    · rename_i row ends writes
      obtain ⟨next,listed,rfl⟩ := map_eq_some_iff.mp ran
      exact h.wrote meets.1 (Decision.write_ends h.time valid meets.2 writes) listed
  | count i =>
    obtain ⟨w,held,rfl⟩ := map_eq_some_iff.mp ran
    exact h.count (Process.writer_held held).1
  | cache i =>
    obtain ⟨w,held,rfl⟩ := map_eq_some_iff.mp ran
    obtain ⟨at_,left⟩ := Process.writer_held held
    exact h.cache at_ left
  | note i =>
    obtain ⟨w,held,noted⟩ := bind_eq_some_iff.mp ran
    obtain ⟨at_,left⟩ := Process.writer_held held
    obtain ⟨next,listed,rfl⟩ := map_eq_some_iff.mp noted
    exact h.note at_ left (meets w at_) listed
  | join a =>
    obtain ⟨free,⟨⟩⟩ := ite_none_right_eq_some.mp ran
    have fits : Fits s a .joined := trivial
    refine h.stands a fits ?_
    intro _ _ _ _ at_
    simp [at_] at free
  | advance a => obtain ⟨l,held,rfl⟩ := map_eq_some_iff.mp ran; exact h.advance held
  | evict a => cases ran; exact h.answer a none (by simp)
  | refresh e =>
    obtain ⟨apart,ran⟩ := ite_none_right_eq_some.mp ran
    obtain ⟨next,listed,rfl⟩ := map_eq_some_iff.mp ran
    exact h.refresh apart listed

theorem start_inv (time : second ≤ clock) : Inv bounds (Process.start clock : Process A) :=
  ⟨time,Blocklist.start_inv,fun _ => rfl,rfl,List.nodup_nil,nofun,fun _ _ => .inl ⟨rfl,nofun⟩,
    nofun,nofun⟩

theorem blocks_converge (bounds : Bounds) (slots : Nat) (clock : Int) (time : second ≤ clock) (s : Process A)
    (path : Reached (step bounds slots) (Careful bounds) (Process.start clock) s) : Sound slots s :=
  (reached_invariant (Inv bounds) (start_inv time) step_inv path).sound

instance decidableCareful (bounds : Bounds) : ∀ (s : Process A) e, Decidable (Careful bounds s e) := by
  intros
  unfold Careful
  split <;> infer_instance

def sampleBounds : Bounds := ⟨2,8,2⟩

-- A lookup that reads before a block of address 1 adds its answer after the block's.
def sampleRace : List (Event Nat) :=
  [.join 1,.advance 1,.advance 1,.write 1 (.block (some minute)),.count 0,.cache 0,.advance 1,.note 0,.advance 1,.advance 1]

theorem blocks_converge_race : ∃ s, runAllowed (step sampleBounds 1) (Careful sampleBounds) (Process.start hour) sampleRace = some s ∧
    (s.writers.length,s.gate.rows.length,s.isIPMitigated 1 1) = (0,0,true) ∧ Sound 1 s :=
  shown_run (by decide) fun s path => blocks_converge sampleBounds 1 hour (by decide) s path

def sampleCrossing : List (Event Nat) :=
  [.write 1 (.block none),.write 1 .release,.count 0,.cache 0,.note 0,.count 0,.cache 0,.note 0]

theorem blocks_diverge : ∃ s, run (step sampleBounds 1) (Process.start hour) sampleCrossing = some s ∧
    s.rows 1 = some ⟨.unmitigated,some hour,none,some hour⟩ ∧ s.isIPMitigated 1 1 = true ∧ ¬ Sound 1 s := by
  refine ⟨_,rfl,by decide,by decide,fun sound => ?_⟩
  have answer := sound 1 ⟨nofun,nofun⟩ (.inl (by decide))
  exact absurd answer (by decide)

end Gateon.Enforcement
