import Gateon.Go.Time
import Gateon.Lib.Transition
import Mathlib.Algebra.Order.Ring.Int
import Gateon.Go.Strings
import Gateon.Lib.KeyedStore
import Mathlib.Data.List.Sort

namespace Gateon.TraceArchive
open Go KeyedStore Transition List Std

def segmentAt (t : Int) : Int := t / hour

def verifyBudget : Nat := 6
def verifyLookahead : Int := 2*hour
def pruneHoldLimit : Int := 24*hour

structure Kind (T : Type) where
  start : T → Nat
  usable : T → Bool

def Kind.segment (kind : Kind T) (t : T) : Int := segmentAt (kind.start t)

structure File (T : Type) where
  traces : List T
  stored : Nat

-- What an hour is written for: exportClosed, or a check up to a horizon with `n` hours done.
inductive Job where
  | copy
  | verify (horizon : Int) (n : Nat)

-- `count` and `scan` are the two reads of reconcile, `write` holds what was read.
inductive Phase (T : Type) where
  | idle
  | next (horizon : Int) (n : Nat) (from_ : Int)
  | check (horizon : Int) (n : Nat) (found : Option Int)
  | count (job : Job) (seg : Int)
  | scan (job : Job) (seg : Int)
  | write (job : Job) (seg : Int) (scanned : List T)
  | done (job : Job) (seg : Int)

-- A prune whose guard has answered: how far it may delete, and whether that is held.
structure Prune where
  before : Int
  held : Bool

-- `reach` is the furthest a check has set out for or a prune was let to go.
structure Process (T : Type) where
  rows : List T
  files : Int → Option (File T)
  verified : Int
  phase : Phase T
  prunes : List Prune
  deleted : List T
  reach : Int

def Process.start : Process T := ⟨[],fun _ => none,0,.idle,[],[],0⟩

section
variable {T : Type} [DecidableEq T]

variable (kind : Kind T)

def storedIn (rows : List T) (seg : Int) : List T := rows.filter fun t => decide (kind.segment t = seg)
def nextStored (rows : List T) (from_ : Int) : Option Int :=
  ((rows.map fun t => (kind.start t : Int)).filter fun t => decide (from_*hour ≤ t)).min?.map segmentAt

-- `floor`, `oldest` and `room`: retention, the oldest archived hour, roomToBackfill.
def firstToVerify (verified floor : Int) (oldest : Option Int) (room : Bool) : Int :=
  let from_ := if verified < floor then floor else verified
  match oldest with
  | some oldest => if from_ < oldest ∧ room = false then oldest else from_
  | none => from_

def merged (scanned : List T) (old : Option (File T)) : List T :=
  scanned.filter kind.usable ++ ((old.map File.traces).getD []).filter fun t => decide (t ∉ scanned)
def put (files : Int → Option (File T)) (seg : Int) (f : File T) : Int → Option (File T) :=
  fun other => if other = seg then some f else files other
def publish (files : Int → Option (File T)) (seg : Int) (scanned : List T) : Int → Option (File T) :=
  if merged kind scanned (files seg) = [] then files else put files seg ⟨merged kind scanned (files seg),scanned.length⟩

-- The guard's answer, which is never past the cutoff, and whether it still holds the store.
def guard (verified : Int) (cutoff : Int) : Prune :=
  if segmentAt cutoff ≤ verified then ⟨segmentAt cutoff,true⟩
  else if segmentAt (cutoff - pruneHoldLimit) ≤ verified then ⟨verified,true⟩
  else ⟨segmentAt (cutoff - pruneHoldLimit),false⟩

variable (s : Process T)

def advance : Option (Process T) :=
  match s.phase with
  | .idle => none
  | .next horizon n from_ => some {s with phase := .check horizon n (nextStored kind s.rows from_)}
  | .check horizon n found =>
    match found with
    | none => some {s with verified := horizon, phase := .idle}
    | some seg =>
      if seg < horizon then
        if n = verifyBudget then some {s with phase := .idle} else some {s with phase := .count (.verify horizon n) seg}
      else some {s with verified := horizon, phase := .idle}
  | .count job seg =>
    match s.files seg with
    | none => some {s with phase := .scan job seg}
    | some f => if (storedIn kind s.rows seg).length = f.stored then some {s with phase := .done job seg} else some {s with phase := .scan job seg}
  | .scan job seg => some {s with phase := .write job seg (storedIn kind s.rows seg)}
  | .write job seg scanned => some {s with files := publish kind s.files seg scanned, phase := .done job seg}
  | .done .copy _ => some {s with phase := .idle}
  | .done (.verify horizon n) seg => some {s with verified := seg+1, phase := .next horizon (n+1) (seg+1)}

def deleteBefore (i : Nat) (p : Prune) : Process T :=
  let gone := fun t => decide ((kind.start t : Int) < p.before*hour)
  {s with
    rows := s.rows.filter fun t => !gone t
    prunes := s.prunes.eraseIdx i
    deleted := if p.held then s.rows.filter gone ++ s.deleted else s.deleted}

inductive Event (T : Type) where
  | insert (t : T)
  | copy (seg : Int)
  | verify (cutoff : Int) (floor : Int) (oldest : Option Int) (room : Bool)
  | advance
  | fail
  | guard (cutoff : Int)
  | delete (i : Nat)

def step : Event T → Option (Process T)
  | .insert t => some (if t ∈ s.rows then s else {s with rows := t :: s.rows})
  | .copy seg =>
    match s.phase with
    | .idle => some {s with phase := .count .copy seg}
    | _ => none
  | .verify cutoff floor oldest room =>
    match s.phase with
    | .idle =>
      let horizon := segmentAt (cutoff + verifyLookahead)
      some {s with phase := .next horizon 0 (firstToVerify s.verified floor oldest room), reach := max s.reach horizon}
    | _ => none
  | .advance => advance kind s
  | .fail => some {s with phase := .idle}
  | .guard cutoff =>
    let answer := guard s.verified cutoff
    some (if answer.before ≤ 0 then s else {s with prunes := answer :: s.prunes, reach := max s.reach answer.before})
  | .delete i =>
    match s.prunes[i]? with
    | none => none
    | some p => some (deleteBefore kind s i p)

-- A trace comes before a check or a prune of its hour, and is passed over by none.
def Careful : Event T → Prop
  | .insert t => kind.usable t ∧ s.reach ≤ kind.segment t
  | .verify _ floor oldest room => ∀ t ∈ s.rows, s.verified ≤ kind.segment t → firstToVerify s.verified floor oldest room ≤ kind.segment t
  | _ => True

def Archived (files : Int → Option (File T)) (t : T) : Prop := ∃ f, files (kind.segment t) = some f ∧ t ∈ f.traces
def Sound : Prop := ∀ t ∈ s.deleted, Archived kind s.files t

end

section
variable {T : Type} {kind : Kind T}

theorem Kind.segment_lt : (kind.start t : Int) < seg*hour ↔ kind.segment t < seg := (Int.ediv_lt_iff_lt_mul (by decide)).symm

structure Scan (kind : Kind T) (rows : List T) (reach seg : Int) (scanned : List T) : Prop where
  nodup : scanned.Nodup
  inside : ∀ t ∈ scanned, kind.segment t = seg
  fresh : (∀ t ∈ scanned, t ∈ rows) ∨ (∀ t ∈ rows, kind.segment t ≠ seg) ∧ seg < reach

structure FileOk (kind : Kind T) (rows : List T) (reach seg : Int) (f : File T) : Prop where
  usable : ∀ t ∈ f.traces, kind.usable t
  written : ∃ scanned, Scan kind rows reach seg scanned ∧ scanned.length = f.stored ∧ ∀ t ∈ scanned, kind.usable t → t ∈ f.traces

section
variable (kind : Kind T) (rows : List T)

def Covered (files : Int → Option (File T)) (before : Int) : Prop :=
  ∀ t ∈ rows, kind.segment t < before → Archived kind files t

-- A check that is at an hour has covered what lies before `upto`.
def Due (files : Int → Option (File T)) (reach seg upto : Int) : Job → Prop
  | .copy => True
  | .verify horizon _ => seg < horizon ∧ horizon ≤ reach ∧ Covered kind rows files upto

def Holds (seg : Int) (scanned : List T) : Job → Prop
  | .copy => True
  | .verify _ _ => ∀ t ∈ rows, kind.segment t = seg → t ∈ scanned

def Knows (files : Int → Option (File T)) (reach : Int) : Phase T → Prop
  | .idle => True
  | .next horizon _ from_ => horizon ≤ reach ∧ ∀ t ∈ rows, kind.segment t < horizon → kind.segment t < from_ → Archived kind files t
  | .check horizon _ found => horizon ≤ reach ∧
      ∀ t ∈ rows, kind.segment t < horizon → (∀ seg, found = some seg → kind.segment t < seg) → Archived kind files t
  | .count job seg | .scan job seg => Due kind rows files reach seg seg job
  | .write job seg scanned => Scan kind rows reach seg scanned ∧ Due kind rows files reach seg seg job ∧ Holds kind rows seg scanned job
  | .done job seg => Due kind rows files reach seg (seg+1) job

end

structure Inv (kind : Kind T) (s : Process T) : Prop where
  nodup : s.rows.Nodup
  usable : ∀ t ∈ s.rows, kind.usable t
  files : ∀ seg f, s.files seg = some f → FileOk kind s.rows s.reach seg f
  verified : s.verified ≤ s.reach ∧ Covered kind s.rows s.files s.verified
  prunes : ∀ p ∈ s.prunes, p.before ≤ s.reach ∧ (p.held → Covered kind s.rows s.files p.before)
  deleted : Sound kind s
  knows : Knows kind s.rows s.files s.reach s.phase

theorem Covered.next {rows : List T} (h : Covered kind rows files seg) (here : ∀ t ∈ rows, kind.segment t = seg → Archived kind files t) :
    Covered kind rows files (seg+1) := by
  intro t stored early
  rcases (Int.lt_add_one_iff.mp early).lt_or_eq with less | same
  · exact h t stored less
  · exact here t stored same

theorem Due.imp {rows rows' : List T} (h : Due kind rows files reach seg upto job) (le : reach ≤ further)
    (more : seg < reach → Covered kind rows files upto → Covered kind rows' files' upto') : Due kind rows' files' further seg upto' job := by
  cases job with
  | copy => trivial
  | verify horizon n => exact ⟨h.1,h.2.1.trans le,more (h.1.trans_le h.2.1) h.2.2⟩

theorem Inv.at (h : Inv kind s) (knows : Knows kind s.rows s.files s.reach place) : Inv kind {s with phase := place} :=
  {h with knows := knows}

theorem Inv.rows {rows : List T} (h : Inv kind s) (nodup : rows.Nodup)
    (mem : ∀ t ∈ rows, t ∈ s.rows ∨ s.reach ≤ kind.segment t ∧ kind.usable t)
    (keeps : ∀ seg scanned, Scan kind s.rows s.reach seg scanned → Scan kind rows s.reach seg scanned) : Inv kind {s with rows := rows} := by
  have covered : ∀ before, before ≤ s.reach → Covered kind s.rows s.files before → Covered kind rows s.files before := by
    intro before low covers t inside early
    rcases mem t inside with old | ⟨late,_⟩
    · exact covers t old early
    · omega
  refine ⟨nodup,?_,?_,⟨h.verified.1,covered _ h.verified.1 h.verified.2⟩,?_,h.deleted,?_⟩
  · exact fun t inside => (mem t inside).elim (h.usable t) And.right
  · intro seg f found
    obtain ⟨usable,scanned,scan,counted⟩ := h.files seg f found
    exact ⟨usable,scanned,keeps seg scanned scan,counted⟩
  · exact fun p inside => ⟨(h.prunes p inside).1,fun held => covered _ (h.prunes p inside).1 ((h.prunes p inside).2 held)⟩
  have knows := h.knows
  cases phase : s.phase with
  | idle => trivial
  | next horizon n from_ | check horizon n found =>
    rw [phase] at knows
    refine ⟨knows.1,fun t inside low => ?_⟩
    rcases mem t inside with old | ⟨late,_⟩
    · exact knows.2 t old low
    · exact absurd (knows.1.trans late) (Int.not_le.mpr low)
  | count job seg | scan job seg => rw [phase] at knows; exact Due.imp knows le_rfl fun low => covered _ low.le
  | write job seg scanned =>
    rw [phase] at knows
    refine ⟨keeps seg scanned knows.1,knows.2.1.imp le_rfl fun low => covered _ low.le,?_⟩
    cases job with
    | copy => trivial
    | verify horizon n =>
      intro t inside same
      rcases mem t inside with old | ⟨late,_⟩
      · exact knows.2.2 t old same
      · have bounds := knows.2.1.1.trans_le knows.2.1.2.1; omega
  | done job seg => rw [phase] at knows; exact Due.imp knows le_rfl fun low => covered _ (Int.add_one_le_iff.mpr low)

theorem Inv.insert (h : Inv kind s) (new : t ∉ s.rows) (usable : kind.usable t) (late : s.reach ≤ kind.segment t) :
    Inv kind {s with rows := t :: s.rows} := by
  refine h.rows (nodup_cons.mpr ⟨new,h.nodup⟩) ?_ ?_
  · intro x inside
    rcases mem_cons.mp inside with rfl | old
    · exact .inr ⟨late,usable⟩
    · exact .inl old
  intro seg scanned scan
  refine {scan with fresh := ?_}
  rcases scan.fresh with there | ⟨gone,low⟩
  · exact .inl fun x inside => mem_cons_of_mem _ (there x inside)
  refine .inr ⟨fun x inside => ?_,low⟩
  rcases mem_cons.mp inside with rfl | old
  · omega
  · exact gone x old

theorem Scan.pruned {rows scanned : List T} (h : Scan kind rows reach seg scanned) (low : before ≤ reach) :
    Scan kind (rows.filter fun t => !decide ((kind.start t : Int) < before*hour)) reach seg scanned := by
  have left : ∀ t, t ∈ (rows.filter fun t => !decide ((kind.start t : Int) < before*hour)) ↔ t ∈ rows ∧ before ≤ kind.segment t := by
    intro t
    simp [Kind.segment_lt]
  refine ⟨h.nodup,h.inside,?_⟩
  rcases h.fresh with there | ⟨gone,past⟩
  · by_cases early : seg < before
    · refine .inr ⟨fun t inside same => ?_,early.trans_le low⟩
      have late := ((left t).mp inside).2
      omega
    · refine .inl fun t inside => (left t).mpr ⟨there t inside,?_⟩
      rw [h.inside t inside]
      omega
  · exact .inr ⟨fun t inside => gone t ((left t).mp inside).1,past⟩

theorem Inv.delete (h : Inv kind s) (held : s.prunes[i]? = some p) : Inv kind (deleteBefore kind s i p) := by
  obtain ⟨low,covers⟩ := h.prunes p (mem_of_getElem? held)
  have kept := h.rows (h.nodup.filter fun t => !decide ((kind.start t : Int) < p.before*hour))
    (fun t inside => .inl (List.mem_filter.mp inside).1) (fun _ _ scan => scan.pruned low)
  refine {kept with prunes := fun q inside => kept.prunes q (mem_of_mem_eraseIdx inside),deleted := ?_}
  intro t gone
  dsimp only [deleteBefore] at gone
  split at gone
  · rename_i holds
    rcases mem_append.mp gone with now | before
    · obtain ⟨inside,early⟩ := List.mem_filter.mp now
      exact covers holds t inside (Kind.segment_lt.mp (of_decide_eq_true early))
    · exact h.deleted t before
  · exact h.deleted t gone

theorem Scan.raise {rows scanned : List T} (h : Scan kind rows reach seg scanned) (le : reach ≤ further) : Scan kind rows further seg scanned :=
  ⟨h.nodup,h.inside,h.fresh.imp_right fun gone => ⟨gone.1,gone.2.trans_le le⟩⟩

theorem Knows.raise {rows : List T} (h : Knows kind rows files reach place) (le : reach ≤ further) : Knows kind rows files further place := by
  cases place with
  | idle => trivial
  | next horizon n from_ | check horizon n found => exact ⟨h.1.trans le,h.2⟩
  | count job seg | scan job seg | done job seg => exact Due.imp h le fun _ => id
  | write job seg scanned => exact ⟨h.1.raise le,h.2.1.imp le fun _ => id,h.2.2⟩

theorem Inv.raise (h : Inv kind s) (le : s.reach ≤ further) : Inv kind {s with reach := further} := by
  refine ⟨h.nodup,h.usable,?_,⟨h.verified.1.trans le,h.verified.2⟩,?_,h.deleted,h.knows.raise le⟩
  · intro seg f found
    obtain ⟨usable,scanned,scan,counted⟩ := h.files seg f found
    exact ⟨usable,scanned,scan.raise le,counted⟩
  · exact fun p inside => ⟨(h.prunes p inside).1.trans le,(h.prunes p inside).2⟩

theorem guard_held (held : (guard verified cutoff).held) : (guard verified cutoff).before ≤ verified := by
  unfold guard at *
  split at held
  · rename_i within
    rw [if_pos within]
    exact within
  · rename_i past
    split at held
    · rename_i within; rw [if_neg past,if_pos within]
    · cases held

theorem Inv.guard (h : Inv kind s) (cutoff : Int) :
    Inv kind {s with prunes := guard s.verified cutoff :: s.prunes, reach := max s.reach (guard s.verified cutoff).before} := by
  have raised := h.raise (le_max_left s.reach (TraceArchive.guard s.verified cutoff).before)
  refine ⟨h.nodup,h.usable,raised.files,raised.verified,?_,h.deleted,raised.knows⟩
  refine forall_mem_cons.mpr ⟨⟨le_max_right _ _,fun held t stored early => ?_⟩,raised.prunes⟩
  exact h.verified.2 t stored (early.trans_le (guard_held held))

theorem Inv.start : Inv kind (Process.start : Process T) :=
  ⟨nodup_nil,nofun,nofun,⟨le_rfl,nofun⟩,nofun,
    nofun,trivial⟩

theorem Inv.verify (h : Inv kind s) (meets : Careful kind s (.verify cutoff floor oldest room)) (horizon : Int) :
    Inv kind {s with phase := .next horizon 0 (firstToVerify s.verified floor oldest room), reach := max s.reach horizon} := by
  refine (h.raise (le_max_left s.reach horizon)).at ⟨le_max_right _ _,?_⟩
  intro t stored _ early
  apply h.verified.2 t stored
  by_contra late
  exact absurd (meets t stored (Int.not_lt.mp late)) (Int.not_le.mpr early)

theorem nextStored_first {rows : List T} (stored : t ∈ rows) (late : from_ ≤ kind.segment t) :
    ∃ seg, nextStored kind rows from_ = some seg ∧ seg ≤ kind.segment t := by
  unfold nextStored
  have mem : (kind.start t : Int) ∈ (rows.map fun t => (kind.start t : Int)).filter fun t => decide (from_*hour ≤ t) := by
    refine List.mem_filter.mpr ⟨List.mem_map_of_mem stored,decide_eq_true ?_⟩
    exact Int.not_lt.mp fun early => Int.not_lt.mpr late (Kind.segment_lt.mp early)
  cases found : ((rows.map fun t => (kind.start t : Int)).filter fun t => decide (from_*hour ≤ t)).min? with
  | none => rw [min?_eq_none_iff.mp found] at mem; cases mem
  | some first => refine ⟨_,rfl,Int.ediv_le_ediv (by decide) ?_⟩; exact (min?_eq_some_iff.mp found).2 _ mem

theorem Inv.counted (h : Inv kind s) (found : s.files seg = some f)
    (same : (storedIn kind s.rows seg).length = f.stored) (stored : t ∈ s.rows) (inside : kind.segment t = seg) : Archived kind s.files t := by
  obtain ⟨_,scanned,scan,length,lines⟩ := h.files seg f found
  rcases scan.fresh with there | ⟨gone,_⟩
  · have sub : scanned ⊆ storedIn kind s.rows seg :=
      fun x mem => List.mem_filter.mpr ⟨there x mem,decide_eq_true (scan.inside x mem)⟩
    have perm := (subperm_of_subset scan.nodup sub).perm_of_length_le (by omega)
    have read : t ∈ scanned := perm.mem_iff.mpr (List.mem_filter.mpr ⟨stored,decide_eq_true inside⟩)
    exact ⟨f,inside ▸ found,lines t read (h.usable t stored)⟩
  · exact absurd inside (gone t stored)

variable [DecidableEq T]

theorem merged_old (held : old = some f) (mem : t ∈ f.traces) (usable : kind.usable t) :
    t ∈ merged kind scanned old := by
  subst held
  by_cases again : t ∈ scanned
  · exact mem_append_left _ (List.mem_filter.mpr ⟨again,usable⟩)
  · exact mem_append_right _ (List.mem_filter.mpr ⟨mem,decide_eq_true again⟩)

theorem publish_line (mem : t ∈ merged kind scanned (files seg)) :
    ∃ f, publish kind files seg scanned seg = some f ∧ t ∈ f.traces := by
  unfold publish
  rw [if_neg (ne_nil_of_mem mem)]
  exact ⟨_,if_pos rfl,mem⟩

theorem publish_other (apart : other ≠ seg) : publish kind files seg scanned other = files other := by
  unfold publish
  split
  · rfl
  · exact if_neg apart

theorem Inv.archived (h : Inv kind s) (held : Archived kind s.files t) (seg : Int) (scanned : List T) :
    Archived kind (publish kind s.files seg scanned) t := by
  obtain ⟨f,found,mem⟩ := held
  by_cases same : kind.segment t = seg
  · subst same; exact publish_line (merged_old found mem ((h.files _ f found).usable t mem))
  · exact ⟨f,(publish_other same).trans found,mem⟩

theorem scanned_archived (mem : t ∈ scanned) (same : kind.segment t = seg) (usable : kind.usable t) :
    Archived kind (publish kind files seg scanned) t := by
  subst same
  exact publish_line (mem_append_left _ (List.mem_filter.mpr ⟨mem,usable⟩))

theorem Inv.publish (h : Inv kind s) (place : s.phase = .write job seg scanned) :
    Inv kind {s with files := publish kind s.files seg scanned, phase := .done job seg} := by
  have knows := h.knows
  rw [place] at knows
  obtain ⟨scan,before,holds⟩ := knows
  have covered : ∀ end_, Covered kind s.rows s.files end_ → Covered kind s.rows (TraceArchive.publish kind s.files seg scanned) end_ :=
    fun end_ covers t stored early => h.archived (covers t stored early) seg scanned
  refine ⟨h.nodup,h.usable,?_,⟨h.verified.1,covered _ h.verified.2⟩,?_,?_,?_⟩
  · intro other f found
    dsimp only at found
    by_cases same : other = seg
    · subst same
      unfold TraceArchive.publish at found
      split at found
      · exact h.files other f found
      rw [put,if_pos rfl] at found
      cases found
      refine ⟨?_,scanned,scan,rfl,fun t mem usable => mem_append_left _ (List.mem_filter.mpr ⟨mem,usable⟩)⟩
      intro t mem
      rcases mem_append.mp mem with new | old
      · exact (List.mem_filter.mp new).2
      have line := (List.mem_filter.mp old).1
      cases held : s.files other with
      | none => rw [held] at line; cases line
      | some f => rw [held] at line; exact (h.files other f held).usable t line
    · rw [publish_other same] at found; exact h.files other f found
  · exact fun p inside => ⟨(h.prunes p inside).1,fun held => covered _ ((h.prunes p inside).2 held)⟩
  · exact fun t gone => h.archived (h.deleted t gone) seg scanned
  cases job with
  | copy => trivial
  | verify horizon n =>
    refine ⟨before.1,before.2.1,(covered _ before.2.2).next fun t stored same => ?_⟩
    exact scanned_archived (holds t stored same) same (h.usable t stored)

theorem advance_inv (h : Inv kind s) (ran : advance kind s = some t) : Inv kind t := by
  have knows := h.knows
  unfold advance at ran
  cases place : s.phase with
  | idle => rw [place] at ran; cases ran
  | next horizon n from_ =>
    rw [place] at ran knows
    cases ran
    refine h.at ⟨knows.1,fun t stored low early => ?_⟩
    by_contra missing
    have late : from_ ≤ kind.segment t := Int.not_lt.mp fun less => missing (knows.2 t stored low less)
    obtain ⟨seg,first,le⟩ := nextStored_first stored late
    exact absurd (early seg first) (Int.not_lt.mpr le)
  | check horizon n found =>
    rw [place] at ran knows
    have through : (∀ seg, found = some seg → horizon ≤ seg) → Inv kind {s with verified := horizon, phase := .idle} := by
      intro past
      refine {h with verified := ⟨knows.1,?_⟩,knows := trivial}
      exact fun t stored early => knows.2 t stored early fun seg first => early.trans_le (past seg first)
    dsimp only at ran
    split at ran
    · cases ran; exact through nofun
    rename_i seg
    split at ran
    · rename_i within
      split at ran
      · cases ran; exact h.at trivial
      cases ran
      refine h.at ⟨within,knows.1,fun t stored early => ?_⟩
      refine knows.2 t stored (early.trans within) ?_
      rintro _ ⟨⟩
      exact early
    · rename_i past
      cases ran
      refine through ?_
      rintro _ ⟨⟩
      exact Int.not_lt.mp past
  | count job seg =>
    rw [place] at ran knows
    dsimp only at ran
    split at ran
    · cases ran; exact h.at knows
    rename_i f found
    split at ran
    · rename_i same
      cases ran
      exact h.at (Due.imp knows le_rfl fun _ covers => covers.next fun t => h.counted found same)
    · cases ran; exact h.at knows
  | scan job seg =>
    rw [place] at ran knows
    cases ran
    refine h.at ⟨⟨h.nodup.filter _,?_,.inl fun t mem => (List.mem_filter.mp mem).1⟩,knows,?_⟩
    · exact fun t mem => of_decide_eq_true (List.mem_filter.mp mem).2
    · cases job with
      | copy => trivial
      | verify horizon n => exact fun t stored inside => List.mem_filter.mpr ⟨stored,decide_eq_true inside⟩
  | write job seg scanned =>
    rw [place] at ran
    cases ran
    exact h.publish place
  | done job seg =>
    rw [place] at ran knows
    cases job with
    | copy => cases ran; exact h.at trivial
    | verify horizon n =>
      cases ran
      refine {h with verified := ⟨Int.add_one_le_iff.mpr (knows.1.trans_le knows.2.1),knows.2.2⟩,knows := ?_}
      exact ⟨knows.2.1,fun t stored _ early => knows.2.2 t stored early⟩

theorem step_inv (h : Inv kind s) (meets : Careful kind s e) (ran : step kind s e = some t) : Inv kind t := by
  cases e with
  | insert x =>
    cases ran
    split
    · exact h
    · exact h.insert ‹_› meets.1 meets.2
  | copy seg =>
    dsimp only [step] at ran
    split at ran <;> cases ran
    exact h.at trivial
  | verify cutoff floor oldest room =>
    dsimp only [step] at ran
    split at ran <;> cases ran
    exact h.verify meets _
  | advance => exact advance_inv h ran
  | fail => cases ran; exact h.at trivial
  | guard cutoff =>
    cases ran
    split
    · exact h
    · exact h.guard cutoff
  | delete i =>
    dsimp only [step] at ran
    split at ran
    · cases ran
    · cases ran; exact h.delete ‹_›

theorem pruned_archived (kind : Kind T) (s : Process T) (path : Reached (step kind) (Careful kind) Process.start s) : Sound kind s :=
  (reached_invariant (Inv kind) Inv.start step_inv path).deleted

instance decidableCareful (kind : Kind T) : ∀ (s : Process T) e, Decidable (Careful kind s e) := by
  intros
  unfold Careful
  split <;> infer_instance

def sampleKind : Kind Nat := ⟨id,fun _ => true⟩

def sampleLate : List (Event Nat) :=
  [.insert 3600000000005,.copy 1,.advance,.advance,.advance,.advance,.insert 3600000000006,.verify (10*hour) 0 none true] ++
    List.replicate 8 .advance ++ [.guard (10*hour),.delete 0]

theorem pruned_archived_late : ∃ s, runAllowed (step sampleKind) (Careful sampleKind) Process.start sampleLate = some s ∧
    (s.rows,s.deleted,s.verified) = ([],[3600000000006,3600000000005],12) ∧ Sound sampleKind s :=
  shown_run (by decide) fun s path => pruned_archived sampleKind s path

-- A trace of an hour that was already checked is pruned and in no file.
theorem late_trace_lost : ∃ s, run (step sampleKind) Process.start
      [.verify (10*hour) 0 none true,.advance,.advance,.insert 3600000000005,.guard (10*hour),.delete 0] = some s ∧
    s.deleted = [3600000000005] ∧ ¬ Sound sampleKind s := by
  refine ⟨_,rfl,rfl,fun sound => ?_⟩
  obtain ⟨f,found,_⟩ := sound 3600000000005 (mem_singleton_self _)
  cases found

end

structure Trace (K : Type) where
  key : K
  value : GoString
deriving DecidableEq

def Trace.unusable (t : Trace K) : Bool := t.value.isEmpty || t.value.contains (byte '\n')

section
variable {K : Type} (keyOfLine : GoString → Option K)

-- One hour: what the store holds for it, its file if that can be opened, and what the store held when the file was written.
structure Hour (K : Type) where
  rows : Store (Trace.key : Trace K → K)
  file : Option (File GoString)
  seen : List (Trace K)

def Hour.start : Hour K := ⟨.empty,none,[]⟩
def Hour.lines (s : Hour K) : List GoString := (s.file.map File.traces).getD []

def Whole (s t : Hour K) : Prop := (∀ row ∈ s.rows.rows, row.unusable = false → row.value ∈ t.lines) ∧ s.lines ⊆ t.lines

-- Since the file was written traces only came or only went, and none has another value than its line.
def Steady (s : Hour K) : Prop :=
  (∀ row ∈ s.rows.rows, row.unusable = false → keyOfLine row.value = some row.key) ∧
    (∀ line ∈ s.lines, ∀ row ∈ s.rows.rows, keyOfLine line = some row.key → line = row.value) ∧
    (s.seen ⊆ s.rows.rows ∨ s.rows.rows ⊆ s.seen)

structure Current (s : Hour K) : Prop where
  steady : Steady keyOfLine s
  keyed : ∀ line ∈ s.lines, ∃ k, keyOfLine line = some k ∧ (⟨k,line⟩ : Trace K).unusable = false
  counted : ∀ f, s.file = some f →
    f.stored = s.seen.length ∧ s.seen.Nodup ∧ ∀ row ∈ s.seen, row.unusable = false → row.value ∈ f.traces

variable {keyOfLine} in
-- Where traces only came or only went, as many as before are the same as before.
theorem Current.unchanged (h : Current keyOfLine s) (found : s.file = some f) (count : s.rows.rows.length = f.stored) : Whole s s := by
  obtain ⟨stored,nodup,held⟩ := h.counted f found
  have inside : s.rows.rows ⊆ s.seen := by
    rcases h.steady.2.2 with came | went
    · exact ((subperm_of_subset nodup came).perm_of_length_le (count.trans stored).le).symm.subset
    · exact went
  refine ⟨fun row present usable => ?_,Subset.refl _⟩
  rw [Hour.lines,found]
  exact held row (inside present) usable

-- The lines whose key can be read, which are all that peek hands on.
def oldLines (lines : List GoString) : List (Trace K) :=
  lines.filterMap fun line => (keyOfLine line).map (⟨·,line⟩)

variable [LinearOrder K]

def merger : List (Trace K) → List (Trace K) → List (Trace K)
  | [],old => old
  | t :: rest,old =>
    (old.takeWhile (·.key ≤ t.key)).filter (·.key ≠ t.key) ++
      ((if t.unusable then [] else [t]) ++ merger rest (old.dropWhile (·.key ≤ t.key)))

section
variable (s : Hour K)

def newLines : List GoString :=
  (merger (s.rows.rows.insertionSort (·.key ≤ ·.key)) (oldLines keyOfLine s.lines)).map Trace.value

-- A file without lines is not published.
def writeSegment : Hour K :=
  if newLines keyOfLine s = [] then s else {s with file := some ⟨newLines keyOfLine s,s.rows.rows.length⟩, seen := s.rows.rows}

def reconcile : Hour K :=
  match s.file with
  | some f => if s.rows.rows.length = f.stored then s else writeSegment keyOfLine s
  | none => writeSegment keyOfLine s

inductive Change (K : Type) where
  | insert (t : Trace K)
  | evict (keep : Trace K → Bool)
  | lose
  | reconcile

def change : Change K → Option (Hour K)
  | .insert t => some {s with rows := s.rows.put t}
  | .evict keep => some {s with rows := s.rows.filter keep}
  | .lose => some {s with file := none, seen := []}
  | .reconcile => some (reconcile keyOfLine s)

def Steadily : Change K → Prop
  | .insert t => Steady keyOfLine {s with rows := s.rows.put t}
  | .evict keep => Steady keyOfLine {s with rows := s.rows.filter keep}
  | _ => True

end

variable {keyOfLine} {scanned old : List (Trace K)}

theorem mem_merger : t ∈ merger scanned old → (t ∈ scanned ∧ t.unusable = false) ∨ t ∈ old := by
  fun_induction merger scanned old with
  | case1 old => exact .inr
  | case2 first rest old ih =>
    intro held
    rcases mem_append.mp held with early | held
    · exact .inr (takeWhile_subset _ (List.mem_filter.mp early).1)
    rcases mem_append.mp held with now | later
    · split at now
      · cases now
      · rename_i usable
        cases mem_singleton.mp now
        exact .inl ⟨mem_cons_self ..,by simpa using usable⟩
    · exact (ih later).imp (fun ⟨inside,usable⟩ => ⟨mem_cons_of_mem _ inside,usable⟩) (dropWhile_subset _ ·)

theorem merger_stored (held : t ∈ scanned) (usable : t.unusable = false) : t ∈ merger scanned old := by
  fun_induction merger scanned old with
  | case1 => cases held
  | case2 first rest old ih =>
    rcases mem_cons.mp held with rfl | later
    · exact mem_append_right _ (mem_append_left _ (by simp [usable]))
    · exact mem_append_right _ (mem_append_right _ (ih later))

-- A line of the old file is left out only for a stored trace of its key.
theorem merger_old (held : t ∈ old) (alone : ∀ row ∈ scanned, row.key ≠ t.key) : t ∈ merger scanned old := by
  fun_induction merger scanned old with
  | case1 => exact held
  | case2 first rest old ih =>
    obtain ⟨apart,alone⟩ := forall_mem_cons.mp alone
    rw [← takeWhile_append_dropWhile (p := (·.key ≤ first.key)) (l := old)] at held
    rcases mem_append.mp held with early | late
    · exact mem_append_left _ (List.mem_filter.mpr ⟨early,by simpa using apart.symm⟩)
    · exact mem_append_right _ (mem_append_right _ (ih late alone))

theorem newLines_stored (held : row ∈ s.rows.rows) (usable : row.unusable = false) : row.value ∈ newLines keyOfLine s :=
  mem_map_of_mem (merger_stored ((mem_insertionSort _).mpr held) usable)

theorem newLines_old (h : Current keyOfLine s) : s.lines ⊆ newLines keyOfLine s := by
  intro line held
  obtain ⟨k,reads,usable⟩ := h.keyed line held
  by_cases taken : ∃ row ∈ s.rows.rows, row.key = k
  · obtain ⟨row,inside,rfl⟩ := taken
    cases h.steady.2.1 line held row inside reads
    exact newLines_stored inside usable
  · have old : ⟨k,line⟩ ∈ oldLines keyOfLine s.lines := mem_filterMap.mpr ⟨line,held,by rw [reads]; rfl⟩
    exact mem_map_of_mem (merger_old old fun row inside key => taken ⟨row,(mem_insertionSort _).mp inside,key⟩)

theorem mem_newLines (held : line ∈ newLines keyOfLine s) : line ∈ s.lines ∨ ∃ row ∈ s.rows.rows, row.unusable = false ∧ row.value = line := by
  obtain ⟨t,merged,rfl⟩ := List.mem_map.mp held
  rcases mem_merger merged with ⟨now,usable⟩ | old
  · exact .inr ⟨t,(mem_insertionSort _).mp now,usable,rfl⟩
  · obtain ⟨line,kept,reads⟩ := mem_filterMap.mp old
    obtain ⟨k,_,rfl⟩ := Option.map_eq_some_iff.mp reads
    exact .inl kept

theorem writeSegment_whole (h : Current keyOfLine s) : Whole s (writeSegment keyOfLine s) ∧ Current keyOfLine (writeSegment keyOfLine s) := by
  have stored : ∀ row ∈ s.rows.rows, row.unusable = false → row.value ∈ newLines keyOfLine s := fun _ => newLines_stored
  have old := newLines_old h
  unfold writeSegment
  split
  · rename_i none
    rw [none] at stored
    exact ⟨⟨fun row held usable => absurd (stored row held usable) not_mem_nil,Subset.refl _⟩,h⟩
  refine ⟨⟨stored,old⟩,⟨h.steady.1,?_,.inl (Subset.refl _)⟩,?_,?_⟩
  · intro line held row inside reads
    rcases mem_newLines held with kept | ⟨other,stored,usable,rfl⟩
    · exact h.steady.2.1 line kept row inside reads
    · have key := (h.steady.1 other stored usable).symm.trans reads
      rw [inj_on_of_nodup_map s.rows.distinct stored inside (Option.some_inj.mp key)]
  · intro line held
    rcases mem_newLines held with kept | ⟨row,inside,usable,rfl⟩
    · exact h.keyed line kept
    · exact ⟨_,h.steady.1 row inside usable,usable⟩
  · rintro f ⟨⟩
    exact ⟨rfl,s.rows.distinct.of_map,stored⟩

theorem reconcile_current (h : Current keyOfLine s) : Whole s (reconcile keyOfLine s) ∧ Current keyOfLine (reconcile keyOfLine s) := by
  unfold reconcile
  split
  · rename_i f found
    split
    · rename_i same; exact ⟨h.unchanged found same,h⟩
    · exact writeSegment_whole h
  · exact writeSegment_whole h

theorem Current.change (h : Current keyOfLine s) (meets : Steadily keyOfLine s e) (ran : change keyOfLine s e = some t) : Current keyOfLine t := by
  cases e with
  | insert | evict => cases ran; exact ⟨meets,h.keyed,h.counted⟩
  | lose => cases ran; exact ⟨⟨h.steady.1,nofun,.inl (nil_subset _)⟩,nofun,nofun⟩
  | reconcile => cases ran; exact (reconcile_current h).2

theorem reconcile_whole (path : Reached (change keyOfLine) (Steadily keyOfLine) Hour.start s) : Whole s (reconcile keyOfLine s) :=
  have start : Current keyOfLine .start :=
    ⟨⟨forall_mem_nil _,forall_mem_nil _,.inl (nil_subset _)⟩,forall_mem_nil _,nofun⟩
  (reconcile_current (reached_invariant _ start Current.change path)).1

def initial (line : GoString) : Option Nat := line.head?.map UInt8.toNat

instance : Decidable (Steadily initial s e) := by
  cases e <;> dsimp only [Steadily,Steady] <;> infer_instance

theorem reconcile_whole_added : ∃ s, Reached (change initial) (Steadily initial) Hour.start s ∧
    (s.lines,s.rows.rows) = ([lit "a"],[⟨99,[]⟩,⟨98,lit "b"⟩]) ∧ Whole s (reconcile initial s) :=
  reached_by [.insert ⟨97,lit "a"⟩,.reconcile,.evict fun _ => false,.reconcile,.insert ⟨98,lit "b"⟩,.insert ⟨99,[]⟩] (by decide) fun _ => reconcile_whole

-- One trace goes and another comes, and as many as before are stored.
theorem equal_count_missed : ∃ s, Reached (change initial) (fun _ _ => True) Hour.start s ∧
    ∃ row ∈ s.rows.rows, row.unusable = false ∧ row.value ∉ (reconcile initial s).lines :=
  shown_reached (fun s => decide (∃ row ∈ s.rows.rows, row.unusable = false ∧ row.value ∉ (reconcile initial s).lines)) true
    [.insert ⟨97,lit "a"⟩,.reconcile,.evict fun _ => false,.insert ⟨98,lit "b"⟩] (by decide) fun _ _ same => of_decide_eq_true same

end

structure SegmentFileInfo where
  start : Int
  node : GoString
  size : Nat
deriving DecidableEq

-- What the pass did with a segment: a deletion that failed keeps it.
inductive Outcome where
  | kept
  | failed
  | deleted
deriving DecidableEq

def compareSegments : SegmentFileInfo → SegmentFileInfo → Ordering := compareLex (compareOn (·.start)) (compareOn (·.node))
def walkAll (nodes : List (List SegmentFileInfo)) : List SegmentFileInfo := nodes.flatten.mergeSort fun a b => (compareSegments a b).isLE
def bytes (segs : List SegmentFileInfo) : Int := (segs.map fun s => (s.size : Int)).sum

-- Settings, the time the retention age ends at, and which deletions fail.
structure Retention where
  maxBytes : Int
  cutoff : Int
  fails : SegmentFileInfo → Bool

def Retention.expired (s : Retention) (info : SegmentFileInfo) : Bool := decide (info.start+hour ≤ s.cutoff)

-- The loop of enforceRetention, with its running total and its stuck flag.
def enforceFrom (s : Retention) : Int → Bool → List SegmentFileInfo → List (SegmentFileInfo × Outcome)
  | _,_,[] => []
  | total,stuck,info :: rest =>
    if ¬s.expired info ∧ ¬(0 < s.maxBytes ∧ s.maxBytes < total ∧ stuck = false) then
      (info,.kept) :: enforceFrom s total stuck rest
    else if s.fails info then (info,.failed) :: enforceFrom s total true rest
    else (info,.deleted) :: enforceFrom s (total-info.size) stuck rest

def enforceRetention (s : Retention) (nodes : List (List SegmentFileInfo)) : List (SegmentFileInfo × Outcome) :=
  enforceFrom s (bytes (walkAll nodes)) false (walkAll nodes)
def keep (pass : List (SegmentFileInfo × Outcome)) : List SegmentFileInfo := (pass.filter (·.2 ≠ .deleted)).map Prod.fst

variable {s : Retention}

instance : TransCmp compareSegments := inferInstanceAs (TransCmp (compareLex _ _))

theorem walkAll_sorted (nodes : List (List SegmentFileInfo)) : (walkAll nodes).Pairwise fun a b => (compareSegments a b).isLE := by
  refine pairwise_mergeSort (fun _ _ _ => TransCmp.isLE_trans) (fun a b => ?_) _
  have swapped : compareSegments b a = (compareSegments a b).swap := OrientedCmp.eq_swap
  rw [swapped]
  cases compareSegments a b <;> rfl

theorem expired_of_older (order : (compareSegments a b).isLE) (past : s.expired b) : s.expired a := by
  have starts : a.start ≤ b.start := by
    rw [compareSegments,compareLex,compareOn,Ordering.isLE_then_iff_and] at order
    exact isLE_compare.mp order.1
  simp only [Retention.expired,decide_eq_true_eq] at past ⊢
  omega

theorem enforceFrom_fst : (enforceFrom s total stuck segs).map Prod.fst = segs := by
  fun_induction enforceFrom <;> simp_all

-- Once the rest fits or a deletion has failed, only what has expired is deleted.
theorem enforceFrom_settled (settled : ¬(0 < s.maxBytes ∧ s.maxBytes < total ∧ stuck = false)) :
    ∀ x ∈ enforceFrom s total stuck segs, x.2 = .deleted → s.expired x.1 := by
  fun_induction enforceFrom with
  | case1 => exact nofun
  | case2 total stuck info rest _ ih => exact forall_mem_cons.mpr ⟨nofun,ih settled⟩
  | case3 total stuck info rest _ _ ih => exact forall_mem_cons.mpr ⟨nofun,ih nofun⟩
  | case4 total stuck info rest chosen _ ih =>
    refine forall_mem_cons.mpr ⟨fun _ => ?_,ih fun ⟨limit,past,free⟩ => settled ⟨limit,by omega,free⟩⟩
    by_contra young
    exact chosen ⟨young,settled⟩

theorem deleted_later (ran : (first,outcome) :: rest = front ++ (info,Outcome.deleted) :: back) (other : outcome ≠ .deleted) :
    (info,Outcome.deleted) ∈ rest := by
  rcases cons_eq_append_iff.mp ran with ⟨_,same⟩ | ⟨_,_,rfl⟩
  · cases same
    exact absurd rfl other
  · simp

-- An unexpired segment is deleted only behind deletions, and while what is left does not fit.
theorem enforceFrom_needed (ran : enforceFrom s total stuck segs = front ++ (info,.deleted) :: back) (young : s.expired info = false) :
    (∀ x ∈ front, x.2 = .deleted) ∧ 0 < s.maxBytes ∧ s.maxBytes < total-bytes (front.map Prod.fst) := by
  fun_induction enforceFrom generalizing front with
  | case1 => simp at ran
  | case2 total stuck first rest calm ih =>
    simp [enforceFrom_settled calm.2 _ (deleted_later ran nofun)] at young
  | case3 total stuck first rest chosen _ ih =>
    have settled : ¬(0 < s.maxBytes ∧ s.maxBytes < total ∧ true = false) := by simp
    simp [enforceFrom_settled settled _ (deleted_later ran nofun)] at young
  | case4 total stuck first rest chosen _ ih =>
    rcases cons_eq_append_iff.mp ran with ⟨rfl,same⟩ | ⟨front,rfl,tail⟩
    · cases same
      refine ⟨nofun,?_⟩
      simp [young,bytes] at chosen ⊢
      exact ⟨chosen.1,chosen.2.1⟩
    · obtain ⟨gone,limit,past⟩ := ih tail
      refine ⟨forall_mem_cons.mpr ⟨rfl,gone⟩,limit,?_⟩
      simp only [bytes,map_cons,sum_cons] at past ⊢
      omega

theorem enforceFrom_kept : ∀ x ∈ enforceFrom s total stuck segs, x.2 = .kept → s.expired x.1 = false := by
  fun_induction enforceFrom with
  | case1 => exact nofun
  | case2 total stuck info rest calm ih => exact forall_mem_cons.mpr ⟨fun _ => by simpa using calm.1,ih⟩
  | case3 total stuck info rest _ _ ih | case4 total stuck info rest _ _ ih => exact forall_mem_cons.mpr ⟨nofun,ih⟩

-- `total` is what has been kept so far and all that is still to come.
theorem enforceFrom_fits (limit : 0 < s.maxBytes) (free : stuck = false) (start : total ≤ s.maxBytes ∨ total = bytes segs)
    (clean : ∀ x ∈ enforceFrom s total stuck segs, x.2 ≠ .failed) :
    total-bytes segs+bytes (keep (enforceFrom s total stuck segs)) ≤ s.maxBytes := by
  fun_induction enforceFrom with
  | case1 => simp [bytes,keep] at start ⊢; omega
  | case2 total stuck info rest calm ih =>
    have fits : total ≤ s.maxBytes := by
      by_contra past
      exact calm.2 ⟨limit,by omega,free⟩
    have later := ih free (.inl fits) (forall_mem_cons.mp clean).2
    simp [bytes,keep] at later ⊢
    omega
  | case3 => exact absurd rfl (forall_mem_cons.mp clean).1
  | case4 total stuck info rest _ _ ih =>
    have later := ih free (by simp [bytes] at start ⊢; omega) (forall_mem_cons.mp clean).2
    simp [bytes,keep] at later ⊢
    omega

def twoNodes : List (List SegmentFileInfo) :=
  [[⟨0,lit "a",4⟩,⟨3*hour,lit "a",4⟩],[⟨3*hour,lit "b",6⟩,⟨4*hour,lit "b",7⟩,⟨5*hour,lit "b",3⟩]]

end Gateon.TraceArchive
