import Gateon.Audit.Chain

namespace Gateon.Audit
open Go Transition
open List hiding after getElem?_eq_some_iff

def State.history (s : State) : List AuditEntry := s.gone ++ s.rows ++ s.inFlight

variable {K : Type} [LinearOrder K] {zone : Zone K}

-- A later time, and later in the column too: the local clock has not been put back between them.
def Reads (zone : Zone K) (a b : Int) : Prop := a < b ∧ zone.column a < zone.column b

instance : DecidableRel (Reads zone) := fun _ _ => inferInstanceAs (Decidable (_ ∧ _))

theorem Reads.trans (one : Reads zone a b) (two : Reads zone b c) : Reads zone a c :=
  ⟨lt_trans one.1 two.1,lt_trans one.2 two.2⟩

def InOrder (zone : Zone K) (entries : List AuditEntry) : Prop := entries.Pairwise fun a b => Reads zone a.timestamp b.timestamp

def Anchored (m : AuditManager) (entries : List AuditEntry) : Prop :=
  match entries.getLast? with
  | some e => m.anchorID = e.id ∧ m.anchorAt = e.timestamp
  | none => m.anchorID = [] ∧ m.anchorAt = zeroTime

structure Intact (mac : Mac) (zone : Zone K) (key : GoString) (s : State) : Prop where
  on : SigningOn s.manager key
  chain : Chain mac key [] s.history
  hash : s.manager.lastHash = lastSignature [] s.history
  ordered : InOrder zone s.history
  ids : (s.rows.map AuditEntry.id).Nodup
  uuids : ∀ e ∈ s.history, e.id.length = 36
  anchor : Anchored s.manager (s.gone ++ s.rows)
  ahead : ∀ e ∈ s.inFlight, s.manager.anchorAt < e.timestamp

theorem started_intact (mac : Mac) (enabled : config.enabled) (signing : config.signEntries)
    (filled : config.signatureKey ≠ []) : Intact mac zone config.signatureKey (started config chunk logDays) where
  on := ⟨⟨config,rfl,enabled,signing,rfl⟩,filled⟩
  chain := ⟨trivial,by simp [State.history,State.inFlight,started]⟩
  hash := rfl
  ordered := List.Pairwise.nil
  ids := nodup_nil
  uuids := by simp [State.history,State.inFlight,started]
  anchor := ⟨rfl,rfl⟩
  ahead := by simp [State.inFlight,started]

theorem inOrder_last (ordered : InOrder zone entries) (member : x ∈ entries) (last : entries.getLast? = some e)
    (after : Reads zone e.timestamp t) : Reads zone x.timestamp t := by
  obtain ⟨front,rfl⟩ := getLast?_eq_some_iff.mp last
  rcases mem_append.mp member with before | here
  · have pairs := (pairwise_append.mp ordered).2.2
    exact (pairs x before e (mem_singleton_self e)).trans after
  · rwa [mem_singleton.mp here]

theorem anchored_bound (ordered : InOrder zone entries) (anchor : Anchored m entries) (member : x ∈ entries)
    (after : Reads zone m.anchorAt t) : Reads zone x.timestamp t := by
  unfold Anchored at anchor
  cases last : entries.getLast? with
  | none => rw [getLast?_eq_none_iff.mp last] at member; cases member
  | some e =>
    simp only [last] at anchor
    rw [anchor.2] at after
    exact inOrder_last ordered member last after

theorem anchored_same (ids : m'.anchorID = m.anchorID) (times : m'.anchorAt = m.anchorAt) (anchor : Anchored m entries) :
    Anchored m' entries := by
  unfold Anchored at anchor ⊢
  rw [ids,times]
  exact anchor

-- The newest row's time, those of the jobs in flight and those now given out follow one another.
def Follows (zone : Zone K) (s : State) (ds : List Draft) : Prop :=
  (s.manager.anchorAt :: (s.inFlight.map AuditEntry.timestamp ++ stamps s.manager.lastStamp (ds.map Draft.now))).Pairwise (Reads zone)

section
variable (intact : Intact mac zone key s)
include intact

theorem signJob_intact (follows : Follows zone s (d :: ds)) : Intact mac zone key (signJob mac s system d ds) := by
  have batch := signEach_batch mac (d :: ds) intact.on
  have history : (signJob mac s system d ds).history = s.history ++ (signEach mac s.manager (d :: ds)).2 := by
    simp [State.history,State.inFlight,signJob,Job.entries,signEach]
  have flight : (signJob mac s system d ds).inFlight = s.inFlight ++ (signEach mac s.manager (d :: ds)).2 := by
    simp [State.inFlight,signJob,Job.entries,signEach]
  unfold Follows at follows
  rw [← signEach_stamps mac,← map_append,pairwise_cons,pairwise_map,forall_mem_map] at follows
  obtain ⟨late,times⟩ := follows
  obtain ⟨_,own,cross⟩ := pairwise_append.mp times
  have known := (pairwise_append.mp intact.ordered).1
  refine ⟨batch_signing batch intact.on,?_,?_,?_,intact.ids,?_,?_,?_⟩
  · rw [history]
    refine (chain_append mac).mpr ⟨intact.chain,?_⟩
    rw [← intact.hash]
    exact batch.chain
  · rw [history,lastSignature_append,← intact.hash]; exact batch.hash
  · rw [history]
    refine pairwise_append.mpr ⟨intact.ordered,own,?_⟩
    intro x before y after
    rcases mem_append.mp before with stored | flying
    · exact anchored_bound known intact.anchor stored (late y (mem_append_right _ after))
    · exact cross x flying y after
  · rw [history]; exact forall_mem_append.mpr ⟨intact.uuids,batch.uuids⟩
  · exact anchored_same batch.anchorID batch.anchorAt intact.anchor
  rw [flight]
  intro e member
  rw [show (signJob mac s system d ds).manager.anchorAt = _ from batch.anchorAt]
  exact (late e member).1

theorem Intact.cut (later : List AuditEntry) (history : s.history = t.history ++ later) (on : SigningOn t.manager key)
    (hash : t.manager.lastHash = lastSignature [] t.history) (ids : (t.rows.map AuditEntry.id).Nodup)
    (anchor : Anchored t.manager (t.gone ++ t.rows)) (ahead : ∀ e ∈ t.inFlight, t.manager.anchorAt < e.timestamp) :
    Intact mac zone key t := by
  obtain ⟨_,chain,_,ordered,_,uuids,_⟩ := intact
  rw [history] at chain ordered uuids
  exact ⟨on,((chain_append mac).mp chain).1,hash,(pairwise_append.mp ordered).1,ids,fun e member => uuids e (mem_append_left _ member),
    anchor,ahead⟩

theorem intact_moved (history : t.history = s.history) (on : SigningOn t.manager key)
    (hash : t.manager.lastHash = s.manager.lastHash) (ids : (t.rows.map AuditEntry.id).Nodup)
    (anchor : Anchored t.manager (t.gone ++ t.rows)) (ahead : ∀ e ∈ t.inFlight, t.manager.anchorAt < e.timestamp) :
    Intact mac zone key t := by
  refine intact.cut [] (by rw [history,append_nil]) on ?_ ids anchor ahead
  rw [history,hash]
  exact intact.hash

end

theorem noteStored_anchored (late : m.anchorAt < e.timestamp) (last : entries.getLast? = some e) : Anchored (noteStored m e) entries := by
  unfold Anchored noteStored
  rw [last,if_pos (not_lt.mpr (le_of_lt late))]
  exact ⟨rfl,rfl⟩

theorem noteStored_frame (m : AuditManager) (e : AuditEntry) : (noteStored m e).config = m.config ∧
    (noteStored m e).lastHash = m.lastHash := by
  unfold noteStored
  split <;> exact ⟨rfl,rfl⟩

theorem job_last (job : Job) : job.entries.getLast? = some job.last := getLast?_eq_some_getLast _
theorem job_last_mem (job : Job) : job.last ∈ job.entries := getLast_mem _

theorem store_parts (ran : store s i = some t) : ∃ job, s.unsettled[i]? = some (job,true) ∧ Insertable s.rows job.entries ∧
    t = { s with manager := noteStored s.manager job.last, rows := s.rows ++ job.entries, unsettled := s.unsettled.eraseIdx i } := by
  unfold store at ran
  split at ran
  · rename_i job queued
    obtain ⟨free,⟨⟩⟩ := Option.ite_none_right_eq_some.mp ran
    exact ⟨job,queued,free,rfl⟩
  · cases ran

def jobEntries (jobs : List (Job × Bool)) : List AuditEntry := jobs.flatMap fun job => job.1.entries

theorem store_intact (intact : Intact mac zone key s) (ran : store s 0 = some t) : Intact mac zone key t := by
  obtain ⟨job,queued,free,rfl⟩ := store_parts ran
  obtain ⟨rest,queue⟩ : ∃ rest, s.unsettled = (job,true) :: rest := by
    cases queue : s.unsettled with
    | nil => simp [queue] at queued
    | cons head rest => exact ⟨rest,by simpa [queue] using queued⟩
  have flight : s.inFlight = job.entries ++ jobEntries rest := by simp [State.inFlight,queue,jobEntries]
  have late : s.manager.anchorAt < job.last.timestamp := intact.ahead _ (by rw [flight]; exact mem_append_left _ (job_last_mem job))
  have behind := (pairwise_append.mp (flight ▸ (pairwise_append.mp intact.ordered).2.1)).2.2
  have anchored {entries} (last : entries.getLast? = some job.last) : Anchored (noteStored s.manager job.last) entries :=
    noteStored_anchored late last
  obtain ⟨config,hash⟩ := noteStored_frame s.manager job.last
  refine intact_moved intact ?_ ⟨?_,intact.on.filled⟩ hash free ?_ ?_
  · simp [State.history,State.inFlight,queue]
  · rw [config]; exact intact.on.configured
  · refine anchored ?_
    rw [← append_assoc,getLast?_append,job_last]
    rfl
  · intro e member
    simp only [State.inFlight,queue,eraseIdx_cons_zero] at member
    rw [(anchored (job_last job)).2]
    exact (behind _ (job_last_mem job) e member).1

theorem lose_parts (ran : lose s i = some t) : ∃ job, s.unsettled[i]? = some (job,true) ∧
    (t = { s with unsettled := s.unsettled.set i (job,false) } ∨
      s.manager.lastHash = job.last.signature ∧
      t = { s with manager := { s.manager with lastHash := job.prevHash }, unsettled := s.unsettled.eraseIdx i }) := by
  unfold lose at ran
  split at ran
  · rename_i job queued
    split at ran
    · rename_i rolledBack
      cases ran
      exact ⟨job,queued,.inr ⟨rolledBack.2,rfl⟩⟩
    · cases ran; exact ⟨job,queued,.inl rfl⟩
  · cases ran

theorem split_at (found : (l : List α)[i]? = some x) : l = l.take i ++ x :: l.drop (i+1) := by
  obtain ⟨inside,here⟩ := List.getElem?_eq_some_iff.mp found
  rw [← here,← drop_eq_getElem_cons inside,take_append_drop]

-- Nothing was signed on top of a hash that is taken back.
theorem rolledBack_last (intact : Intact mac zone key s) (queue : s.unsettled = before ++ (job,mark) :: after)
    (hash : s.manager.lastHash = job.last.signature) : jobEntries after = [] := by
  have front : job.entries = job.entries.dropLast ++ [job.last] := (dropLast_append_getLast _).symm
  have history : s.history =
      (s.gone ++ s.rows ++ jobEntries before ++ job.entries.dropLast) ++ job.last :: jobEntries after := by
    simp only [State.history,State.inFlight,queue,jobEntries,flatMap_append,flatMap_cons]
    rw [front]
    simp [Job.last]
  have chain := intact.chain
  rw [history] at chain
  by_contra more
  obtain ⟨z,last⟩ : ∃ z, (jobEntries after).getLast? = some z :=
    ⟨_,getLast?_eq_some_getLast more⟩
  apply chain_no_repeat chain (mem_of_getLast? last)
  have given := intact.hash
  rw [hash,history,lastSignature_append,lastSignature_cons] at given
  rw [given,lastSignature,last]
  rfl

theorem lose_intact (intact : Intact mac zone key s) (ran : lose s i = some t) : Intact mac zone key t := by
  obtain ⟨job,queued,outcome⟩ := lose_parts ran
  have queue := split_at queued
  obtain ⟨inside,_⟩ := List.getElem?_eq_some_iff.mp queued
  rcases outcome with rfl | ⟨hash,rfl⟩
  · have flight : ({ s with unsettled := s.unsettled.set i (job,false) } : State).inFlight = s.inFlight := by
      simp only [State.inFlight]
      rw [set_eq_take_cons_drop _ inside]
      conv_rhs => rw [queue]
      simp
    refine intact_moved intact ?_ intact.on rfl intact.ids intact.anchor (by rw [flight]; exact intact.ahead)
    simp only [State.history,flight]
  have nothing : (s.unsettled.drop (i+1)).flatMap (fun job => job.1.entries) = [] := rolledBack_last intact queue hash
  have flight : ({ s with manager := { s.manager with lastHash := job.prevHash }, unsettled := s.unsettled.eraseIdx i } :
      State).inFlight = jobEntries (s.unsettled.take i) := by
    simp only [State.inFlight,eraseIdx_eq_take_drop_succ,flatMap_append,nothing]
    simp [jobEntries]
  have whole : s.inFlight = jobEntries (s.unsettled.take i) ++ job.entries := by
    unfold State.inFlight
    conv_lhs => rw [queue]
    rw [flatMap_append,flatMap_cons,nothing]
    simp [jobEntries]
  have history : s.history = (s.gone ++ s.rows ++ jobEntries (s.unsettled.take i)) ++ job.entries := by
    simp [State.history,whole]
  have chain := intact.chain
  rw [history] at chain
  refine intact.cut job.entries (by simp only [State.history,flight,whole,append_assoc]) ⟨intact.on.configured,intact.on.filled⟩ ?_ intact.ids
    intact.anchor ?_
  all_goals simp only [State.history,flight]
  · rw [← job.start]; exact ((chain_append mac).mp chain).2.1.1
  intro e member
  apply intact.ahead e
  rw [whole]
  exact mem_append_left _ member

theorem inOrder_read (ordered : InOrder zone rows) : readBack zone rows = rows := by
  refine List.Pairwise.insertionSort_eq (ordered.imp ?_)
  exact fun reads => .inl reads.2

theorem loadLastHash_frame (zone : Zone K) (rows : List AuditEntry) (m : AuditManager) : (loadLastHash zone rows m).config = m.config := by
  unfold loadLastHash
  split <;> rfl

theorem newest_last (ordered : InOrder zone rows) : newest zone rows = rows.getLast? := by
  unfold newest
  rw [inOrder_read ordered]

theorem restart_intact (intact : Intact mac zone key s) : Intact mac zone key (restart zone s) := by
  obtain ⟨ordered,_⟩ := pairwise_append.mp intact.ordered
  have newestRow := newest_last (pairwise_append.mp ordered).2.1
  have flight : (restart zone s).inFlight = [] := rfl
  have config := loadLastHash_frame zone s.rows
    { s.manager with lastHash := [], lastStamp := zeroTime, anchorID := [], anchorAt := zeroTime }
  have on : SigningOn (restart zone s).manager key := ⟨by rw [restart,config]; exact intact.on.configured,intact.on.filled⟩
  cases rows : s.rows.getLast? with
  | none =>
    have empty : s.rows = [] := getLast?_eq_none_iff.mp rows
    have history : (restart zone s).history = [] := by simp [State.history,State.inFlight,restart,empty]
    have fresh : (restart zone s).manager = { s.manager with lastHash := [], lastStamp := zeroTime, anchorID := [], anchorAt := zeroTime } := by
      simp [restart,loadLastHash,newestRow,rows]
    refine intact.cut s.history (by rw [history]; rfl) on ?_ intact.ids ?_ (by simp [flight])
    · rw [history,fresh]; rfl
    · rw [fresh]; simp [restart,empty,Anchored]
  | some e =>
    have filled : s.rows ≠ [] := by intro empty; simp [empty] at rows
    have last : (s.gone ++ s.rows).getLast? = some e := by simp [getLast?_append,rows]
    have history : (restart zone s).history = s.gone ++ s.rows := by simp [State.history,State.inFlight,restart,filled]
    have loaded : (restart zone s).manager.lastHash = e.signature ∧ (restart zone s).manager.anchorID = e.id ∧
        (restart zone s).manager.anchorAt = e.timestamp := by
      simp [restart,loadLastHash,newestRow,rows]
    refine intact.cut s.inFlight (by rw [history]; rfl) on ?_ intact.ids ?_ (by simp [flight])
    · rw [history,loaded.1,lastSignature,last]; rfl
    · have kept : (restart zone s).gone ++ (restart zone s).rows = s.gone ++ s.rows := by simp [restart,filled]
      rw [kept,Anchored,last]
      exact loaded.2

theorem setDays_intact (intact : Intact mac zone key s) :
    Intact mac zone key { s with manager := setRetentionDays s.manager auditDays, logDays := logDays } := by
  obtain ⟨cfg,configured,enabled,signing,same⟩ := intact.on.configured
  refine intact_moved intact rfl ⟨⟨{ cfg with retentionDays := auditDays },?_,enabled,signing,same⟩,intact.on.filled⟩
    rfl intact.ids intact.anchor intact.ahead
  simp [setRetentionDays,configured]

theorem expired_first (ordered : InOrder zone rows) (cutoff : Int) (limit : Nat) : readExpired zone rows cutoff limit <+: rows := by
  unfold readExpired
  rw [inOrder_read ordered]
  refine ( take_prefix _ _).trans ?_
  induction rows with
  | nil => exact prefix_rfl
  | cons e rest ih =>
    obtain ⟨later,tail⟩ := pairwise_cons.mp ordered
    by_cases old : zone.column e.timestamp < zone.column cutoff
    · rw [filter_cons_of_pos (by simpa using old)]; exact (prefix_cons_inj e).mpr (ih tail)
    have none_old : (e :: rest).filter (fun e => zone.column e.timestamp < zone.column cutoff) = [] := by
      refine filter_eq_nil_iff.mpr ?_
      intro x member
      rcases mem_cons.mp member with rfl | after
      · simpa using old
      · simp only [decide_eq_true_eq]
        exact fun expired => old ((later x after).2.trans expired)
    rw [none_old]
    exact nil_prefix

theorem delete_first (ids : ((logs ++ left).map AuditEntry.id).Nodup) : deleteEntries (logs ++ left) logs = left := by
  rw [map_append,nodup_append] at ids
  unfold deleteEntries
  rw [filter_append,filter_eq_nil_iff.mpr,filter_eq_self.mpr,nil_append]
  · intro e member
    simp only [decide_eq_true_eq]
    intro deleted
    exact ids.2.2 e.id deleted e.id (mem_map_of_mem member) rfl
  · intro e member; simpa using ⟨e,member,rfl⟩

theorem retireChunks_split (cutoff : Int) (size chunks : Nat) (ordered : InOrder zone rows) (ids : (rows.map AuditEntry.id).Nodup) :
    (retireChunks zone cutoff size chunks rows).2 ++ (retireChunks zone cutoff size chunks rows).1 = rows := by
  induction chunks generalizing rows with
  | zero => rfl
  | succ chunks ih =>
    obtain ⟨left,split⟩ := expired_first ordered cutoff size
    have ids' := ids
    have ordered' := ordered
    rw [← split] at ids' ordered'
    have deleted := delete_first ids'
    rw [split] at deleted
    rw [map_append] at ids'
    have rest := ih (pairwise_append.mp ordered').2.1 (nodup_append.mp ids').2.1
    unfold retireChunks
    dsimp only
    rw [deleted]
    split
    · exact split
    · rw [append_assoc,rest,split]

theorem retire_intact (intact : Intact mac zone key s) (now : Int) (chunks : Nat) :
    Intact mac zone key (checkRetention zone s now chunks) := by
  unfold checkRetention
  dsimp only
  split
  · exact intact
  have ordered := (pairwise_append.mp (pairwise_append.mp intact.ordered).1).2.1
  generalize zone.addDays now _ = cutoff
  have split := retireChunks_split cutoff (chunkSize s.manager) (min chunks maxRetentionChunks) ordered intact.ids
  generalize retireChunks zone cutoff (chunkSize s.manager) (min chunks maxRetentionChunks) s.rows = retired at split ⊢
  have both : s.gone ++ retired.2 ++ retired.1 = s.gone ++ s.rows := by rw [append_assoc,split]
  refine intact_moved intact ?_ intact.on rfl ?_ ?_ intact.ahead
  · simp only [State.history,State.inFlight]; rw [both]
  · have ids := intact.ids
    rw [← split,map_append] at ids
    exact (nodup_append.mp ids).2.1
  · rw [both]; exact intact.anchor

-- Jobs are stored in signing order, and their times follow one another.
def Orderly (zone : Zone K) (s : State) : Event → Prop
  | .log d => Follows zone s [d]
  | .system batch => Follows zone s batch
  | .store i => i = 0
  | _ => True

instance (s : State) : (e : Event) → Decidable (Orderly zone s e) := by
  intros
  unfold Orderly Follows
  split <;> infer_instance

theorem step_intact (intact : Intact mac zone key s) (orderly : Orderly zone s e)
    (ran : step zone mac s e = some t) : Intact mac zone key t := by
  have active := signing_not_off intact.on
  cases e with
  | log d =>
    simp only [step,active,Bool.false_eq_true,↓reduceIte,Option.some.injEq] at ran
    subst t
    exact signJob_intact intact orderly
  | system batch =>
    cases batch with
    | nil => cases ran; exact intact
    | cons d ds =>
      simp only [step,active,Bool.false_eq_true,↓reduceIte,Option.some.injEq] at ran
      subst t
      have nows : (asSystem d :: ds.map asSystem).map Draft.now = (d :: ds).map Draft.now := by simp [asSystem,Function.comp_def]
      refine signJob_intact intact ?_
      rw [Follows,nows]
      exact orderly
  | store i =>
    have first : i = 0 := orderly
    subst i
    exact store_intact intact ran
  | lose i => exact lose_intact intact ran
  | restart => cases ran; exact restart_intact intact
  | setDays auditDays logDays => cases ran; exact setDays_intact intact
  | retire now chunks => cases ran; exact retire_intact intact now chunks

theorem reached_intact (enabled : config.enabled) (signing : config.signEntries)
    (filled : config.signatureKey ≠ []) (path : Reached (step zone mac) allowed (started config chunk logDays) s)
    (orderly : ∀ s e, allowed s e → Orderly zone s e) : Intact mac zone config.signatureKey s :=
  reached_invariant (Intact mac zone config.signatureKey) (started_intact mac enabled signing filled)
    (fun intact meets => step_intact intact (orderly _ _ meets)) path

def KeepsRows : Event → Prop
  | .retire .. => False
  | _ => True

instance : (e : Event) → Decidable (KeepsRows e)
  | .retire .. => isFalse id
  | .log _ | .system _ | .store _ | .lose _ | .restart | .setDays .. => isTrue trivial

theorem step_gone (keeps : KeepsRows e) (whole : s.gone = []) (ran : step zone mac s e = some t) : t.gone = [] := by
  cases e with
  | log d => cases ran; split <;> exact whole
  | system batch =>
    cases batch with
    | nil => cases ran; exact whole
    | cons d ds => cases ran; split <;> exact whole
  | store i => obtain ⟨_,_,_,rfl⟩ := store_parts ran; exact whole
  | lose i =>
    obtain ⟨_,_,rfl | ⟨_,rfl⟩⟩ := lose_parts ran <;> exact whole
  | restart => cases ran; simp [restart,whole]
  | setDays auditDays logDays => cases ran; exact whole
  | retire now chunks => exact keeps.elim

theorem honest_log_verifies (mac : Mac) (zone : Zone K) (config : AuditConfig) (chunk : Nat) (logDays : Int)
    (enabled : config.enabled = true) (signing : config.signEntries = true) (filled : config.signatureKey ≠ [])
    (path : Reached (step zone mac) (fun s e => Orderly zone s e ∧ KeepsRows e) (started config chunk logDays) s) :
    VerifyChain mac (readBack zone s.rows) config.signatureKey [] = none := by
  have intact := reached_intact enabled signing filled path fun _ _ meets => meets.1
  have whole : s.gone = [] := 
    reached_invariant (·.gone = []) rfl (fun whole meets => step_gone meets.2 whole) path
  obtain ⟨chain,_⟩ := (chain_append mac).mp intact.chain
  obtain ⟨ordered,_⟩ := pairwise_append.mp intact.ordered
  rw [whole,nil_append] at chain ordered
  rw [inOrder_read ordered]
  exact (verifyChain_none mac s.rows _ []).mpr ⟨filled,chain⟩

def civil : Zone Int := ⟨fun now days => now + days * 86400000000000,.refl Int⟩
def signingConfig : AuditConfig := ⟨true,true,lit "k",0⟩
def draft (id : String) (now : Int) (uuid : (lit id).length = 36) : Draft :=
  ⟨lit id,lit "u",lit "login",lit "r",lit "d",lit "1.1.1.1",now,uuid⟩
def draftA : Draft := draft "00000000-0000-0000-0000-00000000000a" 1000000000 (by decide)
def draftB : Draft := draft "00000000-0000-0000-0000-00000000000b" 2000000000 (by decide)
def draftC : Draft := draft "00000000-0000-0000-0000-00000000000c" 3000000000 (by decide)

theorem honest_log_verifies_three : ∃ s,
    runAllowed (step civil .transparent) (fun s e => Orderly civil s e ∧ KeepsRows e) (started signingConfig 0 0)
      [.log draftA,.store 0,.system [draftB,draftC],.lose 0,.restart,.log draftB,.store 0] = some s ∧
    s.rows.length = 2 ∧ VerifyChain .transparent (readBack civil s.rows) (lit "k") [] = none :=
  shown_run (by decide +kernel) fun s => honest_log_verifies .transparent civil signingConfig 0 0 rfl rfl (by decide)

-- The clock is put back an hour between the two drafts.
def autumn : Zone Int where
  addDays := civil.addDays
  column := ⟨fun t => if t < 1500000000 then 2*t else 2*(t-3600000000000)+1,fun a b same => by dsimp only at same; split at same <;> split at same <;> omega⟩

theorem lost_entry_breaks_log :
    (run (step civil .transparent) (started signingConfig 0 0) [.log draftA,.lose 0,.log draftB,.store 1]).map
      (fun s => (s.rows.length,VerifyChain .transparent (readBack civil s.rows) (lit "k") [])) =
    some (1,some ⟨0,lit "00000000-0000-0000-0000-00000000000b",wrongPrevious⟩) ∧
    (run (step autumn .transparent) (started signingConfig 0 0) [.log draftA,.store 0,.log draftB,.store 0]).map
      (fun s => (s.rows.length,VerifyChain .transparent (readBack autumn s.rows) (lit "k") [])) =
    some (2,some ⟨0,lit "00000000-0000-0000-0000-00000000000b",wrongPrevious⟩) := by
  decide +kernel

def DefaultVerifyLimit : Nat := 1000
def MaxVerifyLimit : Nat := 5000

def errSigningOff : GoString :=
  lit "audit signing is off, so there is no chain to verify; turn on audit.sign_entries"
def errUnknownCursor : GoString := lit "after_id names no audit entry; start again from a time"

structure VerifyRequest where
  fromTime : Int
  toTime : Int
  afterID : GoString
  limit : Int

structure VerifyResult where
  checked : Int
  chainBreak : Option ChainError
  breakAt : Int
  nextAfterID : GoString
  complete : Bool
  last : Int
  tailAnchor : Int
  tailMissing : Bool
deriving DecidableEq

def signingKey (m : AuditManager) : GoString :=
  match m.config with
  | some cfg => if cfg.signEntries then cfg.signatureKey else []
  | none => []

def windowLimit (limit : Int) : Nat := if limit ≤ 0 then DefaultVerifyLimit else min limit.toNat MaxVerifyLimit

section
variable (zone : Zone K) (rows : List AuditEntry)

def signatureBefore (fromTime : Int) : GoString :=
  if fromTime = zeroTime then []
  else ((readBack zone rows).filter fun e => zone.column e.timestamp < zone.column fromTime).getLast?.elim [] AuditEntry.signature

variable (req : VerifyRequest)

def startFrom : GoString × List AuditEntry :=
  let genesis := signatureBefore zone rows req.fromTime
  if req.fromTime = zeroTime then (genesis,readBack zone rows)
  else (genesis,(readBack zone rows).filter fun e => zone.column req.fromTime ≤ zone.column e.timestamp)

def After (cursor e : AuditEntry) : Prop :=
  zone.column cursor.timestamp < zone.column e.timestamp ∨ e.timestamp = cursor.timestamp ∧ compareStrings cursor.id e.id = .lt

instance (cursor e : AuditEntry) : Decidable (After zone cursor e) := inferInstanceAs (Decidable (_ ∨ _ ∧ _))

def startAfter : Except GoString (GoString × List AuditEntry) :=
  match rows.find? fun e => e.id = req.afterID with
  | none => .error errUnknownCursor
  | some cursor => .ok (cursor.signature,(readBack zone rows).filter (After zone cursor))

def window (n : Nat) : Except GoString (GoString × List AuditEntry) :=
  let start := if req.afterID ≠ [] then startAfter zone rows req else .ok (startFrom zone rows req)
  match start with
  | .error e => .error e
  | .ok (genesis,found) =>
    let found := if req.toTime = zeroTime then found else found.filter fun e => zone.column e.timestamp ≤ zone.column req.toTime
    .ok (genesis,found.take n)

end

def swapTie (prev : GoString) (e : AuditEntry) : List AuditEntry → Option (AuditEntry × List AuditEntry)
  | [] => none
  | f :: rest =>
    if f.timestamp ≠ e.timestamp then none
    else if f.previousHash = prev then some (f,e :: rest)
    else (swapTie prev e rest).map fun found => (found.1,f :: found.2)

-- `fuel` is the number of entries left.
def orderTiesFrom : Nat → GoString → List AuditEntry → List AuditEntry
  | 0,_,entries => entries
  | _,_,[] => []
  | fuel+1,prev,e :: rest =>
    let (e,rest) := if e.previousHash ≠ prev then (swapTie prev e rest).getD (e,rest) else (e,rest)
    e :: orderTiesFrom fuel e.signature rest

def orderTies (entries : List AuditEntry) (genesis : GoString) : List AuditEntry :=
  orderTiesFrom entries.length genesis entries

def verdict (mac : Mac) (entries : List AuditEntry) (key genesis : GoString) (more : Bool) : VerifyResult :=
  match VerifyChain mac entries key genesis with
  | some ce => ⟨ce.index,some ce,(entries[ce.index.toNat]?).elim zeroTime AuditEntry.timestamp,[],false,zeroTime,zeroTime,false⟩
  | none =>
    let last := entries.getLast?.elim zeroTime AuditEntry.timestamp
    if more then ⟨entries.length,none,zeroTime,entries.getLast?.elim [] AuditEntry.id,false,last,zeroTime,false⟩
    else ⟨entries.length,none,zeroTime,[],true,last,zeroTime,false⟩

-- The audit setting alone, where checkRetention takes the shorter of the two.
def anchorExpired (zone : Zone K) (m : AuditManager) (now : Int) : Bool :=
  0 < GetRetentionDays m && m.anchorAt < zone.addDays now (-GetRetentionDays m)

def checkTail (zone : Zone K) (s : State) (now : Int) (res : VerifyResult) : VerifyResult :=
  if s.manager.anchorID = [] ∨ anchorExpired zone s.manager now then res
  else
    let missing := decide (s.manager.anchorID ∉ s.rows.map AuditEntry.id)
    { res with tailMissing := missing || res.tailMissing, tailAnchor := s.manager.anchorAt }

def VerifyRange (mac : Mac) (zone : Zone K) (s : State) (req : VerifyRequest) (now : Int) : Except GoString VerifyResult :=
  let key := signingKey s.manager
  if key = [] then .error errSigningOff else
  let limit := windowLimit req.limit
  match window zone s.rows req (limit+1) with
  | .error e => .error e
  | .ok (genesis,found) =>
    let more := decide (limit < found.length)
    let entries := orderTies (found.take limit) genesis
    let res := verdict mac entries key genesis more
    if res.complete ∧ res.chainBreak = none ∧ req.toTime = zeroTime then .ok (checkTail zone s now res) else .ok res

-- Each window but the last covers a row, so rows + 1 windows are enough.
def followWindows (mac : Mac) (zone : Zone K) (s : State) (limit now : Int) : Nat → GoString → List (Except GoString VerifyResult)
  | 0,_ => []
  | fuel+1,afterID => match VerifyRange mac zone s ⟨zeroTime,zeroTime,afterID,limit⟩ now with
    | .error e => [.error e]
    | .ok res => .ok res :: if res.nextAfterID = [] then [] else followWindows mac zone s limit now fuel res.nextAfterID

def VerifyLog (mac : Mac) (zone : Zone K) (s : State) (limit now : Int) : List (Except GoString VerifyResult) :=
  followWindows mac zone s limit now (s.rows.length+1) []

def Clean (results : List (Except GoString VerifyResult)) : Prop :=
  (∀ r ∈ results, ∃ res, r = .ok res ∧ res.chainBreak = none ∧ res.tailMissing = false) ∧
    ∃ res, results.getLast? = some (.ok res) ∧ res.complete

instance : IsTrans AuditEntry (ReadsBefore zone) where
  trans a b c one two := by
    rcases one with earlier | ⟨same,before⟩
    · rcases two with later | ⟨tied,_⟩
      · exact .inl (earlier.trans later)
      · exact .inl (tied ▸ earlier)
    · rcases two with later | ⟨tied,after⟩
      · exact .inl (same ▸ later)
      · exact .inr ⟨same.trans tied,Std.TransCmp.isLE_trans before after⟩

instance : Std.Total (ReadsBefore zone) where
  total a b := by
    rcases lt_trichotomy (zone.column a.timestamp) (zone.column b.timestamp) with earlier | same | later
    · exact .inl (.inl earlier)
    · have same := zone.column.injective same
      have flipped : compareStrings b.id a.id = (compareStrings a.id b.id).swap := Std.OrientedCmp.eq_swap
      cases order : compareStrings a.id b.id with
      | lt | eq => exact .inl (.inr ⟨same,by rw [order]; rfl⟩)
      | gt => exact .inr (.inr ⟨same.symm,by rw [flipped,order]; rfl⟩)
    · exact .inr (.inl later)

theorem readBack_perm (zone : Zone K) (rows : List AuditEntry) : (readBack zone rows).Perm rows := perm_insertionSort (ReadsBefore zone) rows

theorem readBack_after (zone : Zone K) (ids : (rows.map AuditEntry.id).Nodup) : (readBack zone rows).Pairwise (After zone) := by
  have apart : (readBack zone rows).Pairwise fun a b => a.id ≠ b.id :=
    pairwise_map.mp (((readBack_perm zone rows).map AuditEntry.id).nodup_iff.mpr ids)
  refine ((pairwise_insertionSort (ReadsBefore zone) rows).and apart).imp ?_
  rintro a b ⟨earlier | ⟨same,before⟩,other⟩
  · exact .inl earlier
  refine .inr ⟨same.symm,?_⟩
  cases order : compareStrings a.id b.id with
  | lt => rfl
  | eq => exact absurd (Std.LawfulEqCmp.eq_of_compare order) other
  | gt => simp [order] at before

theorem after_asymm (after : After zone a b) : ¬After zone b a := by
  rcases after with earlier | ⟨same,before⟩
  · rintro (later | ⟨tied,_⟩)
    · exact lt_asymm earlier later
    · exact lt_irrefl _ (tied ▸ earlier)
  · have flipped : compareStrings b.id a.id = (compareStrings a.id b.id).swap := Std.OrientedCmp.eq_swap
    rintro (later | ⟨_,behind⟩)
    · exact lt_irrefl _ (same ▸ later)
    · rw [flipped,before] at behind; cases behind

theorem after_split (read : (front ++ x :: back).Pairwise (After zone)) : (front ++ x :: back).filter (After zone x) = back := by
  obtain ⟨_,tail,cross⟩ := pairwise_append.mp read
  obtain ⟨later,_⟩ := pairwise_cons.mp tail
  have notBefore : front.filter (After zone x) = [] := by
    refine filter_eq_nil_iff.mpr ?_
    intro e member
    simpa using after_asymm (cross e member x mem_cons_self)
  have notItself : ¬After zone x x := fun after => after_asymm after after
  rw [filter_append,notBefore,nil_append,filter_cons_of_neg (by simpa using notItself)]
  refine filter_eq_self.mpr ?_
  intro e member
  exact decide_eq_true (later e member)

theorem find_id {rows : List AuditEntry} (ids : (rows.map AuditEntry.id).Nodup) (member : x ∈ rows) :
    rows.find? (fun e => e.id = x.id) = some x := by
  obtain ⟨front,back,rfl⟩ := append_of_mem member
  rw [map_append,nodup_append] at ids
  rw [find?_append,find?_eq_none.mpr,Option.none_or]
  · simp
  · intro e member
    have apart := ids.2.2 e.id (List.mem_map_of_mem member) x.id (by simp)
    simpa using apart

def cursor (checked : List AuditEntry) : GoString := checked.getLast?.elim [] AuditEntry.id

theorem cursor_append (filled : page ≠ []) : cursor (checked ++ page) = cursor page := by
  unfold cursor
  rw [getLast?_append,getLast?_eq_some_getLast filled]
  rfl

theorem window_read (ids : (rows.map AuditEntry.id).Nodup) (read : readBack zone rows = checked ++ left)
    (named : ∀ e ∈ checked.getLast?, e.id ≠ []) (limit : Int) (n : Nat) :
    window zone rows ⟨zeroTime,zeroTime,cursor checked,limit⟩ n = .ok (lastSignature [] checked,left.take n) := by
  cases checked using List.reverseRecOn with
  | nil => rw [nil_append] at read; simp [window,cursor,startFrom,signatureBefore,read]
  | append_singleton front x =>
    rw [append_assoc,singleton_append] at read
    have ordered := readBack_after zone ids
    rw [read] at ordered
    have member : x ∈ rows := (readBack_perm zone rows).subset (by simp [read])
    have filled : x.id ≠ [] := named x (by simp)
    have here : cursor (front ++ [x]) = x.id := by simp [cursor]
    have signature : lastSignature [] (front ++ [x]) = x.signature := by simp [lastSignature]
    simp only [window,startAfter,here,signature,filled,ne_eq,not_false_eq_true,↓reduceIte,find_id ids member,read,
      after_split ordered]

theorem windowLimit_pos (limit : Int) : 0 < windowLimit limit := by
  unfold windowLimit DefaultVerifyLimit MaxVerifyLimit
  split <;> omega

def tiedResult (mac : Mac) (zone : Zone K) (s : State) (key : GoString) (limit : Nat) (now : Int)
    (genesis : GoString) (left : List AuditEntry) : VerifyResult :=
  let res := verdict mac (orderTies (left.take limit) genesis) key genesis (limit < left.length)
  if res.complete ∧ res.chainBreak = none then checkTail zone s now res else res

theorem verifyRange_read (on : signingKey s.manager = key) (filled : key ≠ []) (ids : (s.rows.map AuditEntry.id).Nodup)
    (read : readBack zone s.rows = checked ++ left) (named : ∀ e ∈ checked.getLast?, e.id ≠ []) (limit now : Int) :
    VerifyRange mac zone s ⟨zeroTime,zeroTime,cursor checked,limit⟩ now =
      .ok (tiedResult mac zone s key (windowLimit limit) now (lastSignature [] checked) left) := by
  have opened := window_read ids read named limit (windowLimit limit+1)
  have taken : (left.take (windowLimit limit+1)).take (windowLimit limit) = left.take (windowLimit limit) := by
    rw [take_take]
    congr 1
    omega
  have more : (windowLimit limit < (left.take (windowLimit limit+1)).length) = (windowLimit limit < left.length) := by
    rw [length_take]
    apply propext
    omega
  unfold VerifyRange tiedResult
  simp only [on,filled,↓reduceIte,opened,taken,more,and_true]
  split <;> rfl

omit [LinearOrder K] in
theorem checkTail_frame (zone : Zone K) (s : State) (now : Int) (res : VerifyResult) :
    (checkTail zone s now res).complete = res.complete ∧ (checkTail zone s now res).chainBreak = res.chainBreak ∧
      (checkTail zone s now res).nextAfterID = res.nextAfterID ∧ (checkTail zone s now res).checked = res.checked := by
  unfold checkTail
  split <;> exact ⟨rfl,rfl,rfl,rfl⟩

theorem verdict_intact (mac : Mac) (verified : VerifyChain mac entries key genesis = none) (more : Bool) :
    (verdict mac entries key genesis more).chainBreak = none ∧ (verdict mac entries key genesis more).tailMissing = false ∧
    (verdict mac entries key genesis more).complete = !more ∧
    (verdict mac entries key genesis more).nextAfterID = (if more then cursor entries else []) ∧
    (verdict mac entries key genesis more).checked = entries.length := by
  unfold verdict
  rw [verified]
  cases more <;> exact ⟨rfl,rfl,rfl,rfl,rfl⟩

theorem verdict_broken (mac : Mac) (broken : VerifyChain mac entries key genesis ≠ none) (more : Bool) :
    (verdict mac entries key genesis more).chainBreak ≠ none := by
  unfold verdict
  split
  · simp
  · contradiction

omit [LinearOrder K] in
theorem tiedResult_verified (zone : Zone K) (s : State) (now : Int) (filled : key ≠ [])
    (chain : Chain mac key genesis (orderTies (left.take limit) genesis)) :
    (tiedResult mac zone s key limit now genesis left).chainBreak = none ∧
    (tiedResult mac zone s key limit now genesis left).complete = !decide (limit < left.length) ∧
    (tiedResult mac zone s key limit now genesis left).nextAfterID =
      (if limit < left.length then cursor (orderTies (left.take limit) genesis) else []) ∧
    (tiedResult mac zone s key limit now genesis left).checked = (orderTies (left.take limit) genesis).length := by
  have verified := (verifyChain_none mac _ key genesis).mpr ⟨filled,chain⟩
  obtain ⟨unbroken,_,complete,next,checked⟩ := verdict_intact mac verified (decide (limit < left.length))
  obtain ⟨sameComplete,sameBreak,sameNext,sameChecked⟩ := checkTail_frame zone s now
    (verdict mac (orderTies (left.take limit) genesis) key genesis (decide (limit < left.length)))
  simp only [decide_eq_true_eq] at next
  unfold tiedResult
  dsimp only
  split
  · exact ⟨sameBreak.trans unbroken,sameComplete.trans complete,sameNext.trans next,sameChecked.trans checked⟩
  · exact ⟨unbroken,complete,next,checked⟩

omit [LinearOrder K] in
theorem tiedResult_unbroken (unbroken : (tiedResult mac zone s key limit now genesis left).chainBreak = none) :
    Chain mac key genesis (orderTies (left.take limit) genesis) := by
  by_contra broken
  have shown := verdict_broken mac (fun verified => broken ((verifyChain_none mac _ key genesis).mp verified).2)
    (decide (limit < left.length))
  unfold tiedResult at unbroken
  rw [if_neg fun both => shown both.2] at unbroken
  exact shown unbroken

end Gateon.Audit
