import Gateon.Audit.Verify

namespace Gateon.Audit
open Go Transition List

variable {K : Type} [LinearOrder K] {zone : Zone K}

theorem orderTies_same (ordered : InOrder zone entries) (genesis : GoString) : orderTies entries genesis = entries := by
  suffices all : ∀ fuel entries genesis, InOrder zone entries → orderTiesFrom fuel genesis entries = entries from
    all _ _ _ ordered
  intro fuel
  induction fuel with
  | zero => intros; rfl
  | succ fuel ih =>
    intro entries genesis ordered
    cases entries with
    | nil => rfl
    | cons e rest =>
      obtain ⟨later,tail⟩ := pairwise_cons.mp ordered
      have alone : swapTie genesis e rest = none := by
        cases rest with
        | nil => rfl
        | cons f rest =>
          have next : f.timestamp ≠ e.timestamp := ne_of_gt (later f mem_cons_self).1
          simp [swapTie,next]
      simp [orderTiesFrom,alone,ih rest e.signature tail]

def pageResult (mac : Mac) (zone : Zone K) (s : State) (key : GoString) (limit : Nat) (now : Int)
    (genesis : GoString) (left : List AuditEntry) : VerifyResult :=
  let res := verdict mac (left.take limit) key genesis (limit < left.length)
  if res.complete ∧ res.chainBreak = none then checkTail zone s now res else res

theorem signing_key (on : SigningOn m key) : signingKey m = key := by
  obtain ⟨cfg,configured,_,signing,same⟩ := on.configured
  simp [signingKey,configured,signing,same]

theorem rows_ordered (intact : Intact mac zone key s) : InOrder zone s.rows :=
  (pairwise_append.mp (pairwise_append.mp intact.ordered).1).2.1
theorem rows_history (s : State) (member : e ∈ s.rows) : e ∈ s.history :=
  mem_append_left _ (mem_append_right _ member)

theorem uuid_named {e : AuditEntry} (uuid : e.id.length = 36) : e.id ≠ [] := by
  intro empty
  simp [empty] at uuid

theorem verifyRange_page (intact : Intact mac zone key s) (split : s.rows = checked ++ left) (limit now : Int) :
    VerifyRange mac zone s ⟨zeroTime,zeroTime,cursor checked,limit⟩ now =
      .ok (pageResult mac zone s key (windowLimit limit) now (lastSignature [] checked) left) := by
  have ordered := rows_ordered intact
  have read : readBack zone s.rows = checked ++ left := (inOrder_read ordered).trans split
  have named : ∀ e ∈ checked.getLast?, e.id ≠ [] := by
    intro e last
    refine uuid_named (intact.uuids e (rows_history s ?_))
    rw [split]
    exact mem_append_left left (mem_of_getLast? last)
  rw [split] at ordered
  have inOrder : InOrder zone (left.take (windowLimit limit)) :=
    (pairwise_append.mp ordered).2.1.sublist (take_sublist _ _)
  rw [verifyRange_read (signing_key intact.on) intact.on.filled intact.ids read named,tiedResult,orderTies_same inOrder]
  rfl

section
variable (zone : Zone K) (s : State) (now : Int)

def TailFound : Prop :=
  s.manager.anchorID = [] ∨ anchorExpired zone s.manager now ∨ s.manager.anchorID ∈ s.rows.map AuditEntry.id

omit [LinearOrder K] in
theorem checkTail_missing (found : res.tailMissing = false) :
    (checkTail zone s now res).tailMissing = false ↔ TailFound zone s now := by
  unfold checkTail TailFound
  split
  · rename_i skipped
    tauto
  rename_i looked
  rw [not_or] at looked
  simp only [found,Bool.or_false,decide_eq_false_iff_not,not_not,looked,Bool.false_eq_true,
    false_or]

end

theorem clean_one (intact : res.chainBreak = none) (found : res.tailMissing = false) (complete : res.complete) :
    Clean [.ok res] :=
  ⟨fun _ member => ⟨res,mem_singleton.mp member,intact,found⟩,res,rfl,complete⟩

theorem clean_cons (intact : res.chainBreak = none) (found : res.tailMissing = false) (rest : Clean results) :
    Clean (.ok res :: results) := by
  obtain ⟨all,last,ends,complete⟩ := rest
  refine ⟨forall_mem_cons.mpr ⟨⟨res,rfl,intact,found⟩,all⟩,last,?_,complete⟩
  rw [getLast?_cons,ends]
  rfl

theorem cursor_named {page} (uuids : ∀ e ∈ page, e.id.length = 36) (filled : page ≠ []) : cursor page ≠ [] := by
  intro empty
  rw [cursor,getLast?_eq_some_getLast filled] at empty
  exact uuid_named (uuids _ (getLast_mem filled)) empty

-- Induction on the rows left: each window starts from the last one's signature.
theorem windows_clean (intact : Intact mac zone key s) (tail : TailFound zone s now) (chain : Chain mac key [] s.rows)
    (split : s.rows = checked ++ left) (enough : left.length < fuel) (limit : Int) :
    Clean (followWindows mac zone s limit now fuel (cursor checked)) := by
  induction fuel generalizing checked left with
  | zero => omega
  | succ fuel ih =>
    have positive := windowLimit_pos limit
    have parts := chain
    rw [split] at parts
    obtain ⟨_,rest⟩ := (chain_append mac).mp parts
    rw [← take_append_drop (windowLimit limit) left] at rest
    have verified : VerifyChain mac (left.take (windowLimit limit)) key (lastSignature [] checked) = none :=
      (verifyChain_none _ _ _ _).mpr ⟨intact.on.filled,((chain_append mac).mp rest).1⟩
    obtain ⟨unbroken,unmissed,complete,after,_⟩ := verdict_intact mac verified (decide (windowLimit limit < left.length))
    unfold followWindows
    rw [verifyRange_page intact split]
    unfold pageResult
    by_cases more : windowLimit limit < left.length
    · have next : s.rows = (checked ++ left.take (windowLimit limit)) ++ left.drop (windowLimit limit) := by
        rw [append_assoc,take_append_drop]
        exact split
      have filled : left.take (windowLimit limit) ≠ [] := ne_nil_of_length_pos (by rw [length_take]; omega)
      have named : cursor (left.take (windowLimit limit)) ≠ [] := by
        refine cursor_named (fun e member => intact.uuids e (rows_history s ?_)) filled
        rw [split]
        exact mem_append_right _ (mem_of_mem_take member)
      have shorter : (left.drop (windowLimit limit)).length < fuel := by rw [length_drop]; omega
      have later := ih next shorter
      rw [cursor_append filled] at later
      simp only [more,decide_true,Bool.not_true,↓reduceIte] at complete after unbroken unmissed
      simp only [more,decide_true,complete,Bool.false_eq_true,false_and,↓reduceIte,after,named]
      exact clean_cons unbroken unmissed later
    · simp only [more,decide_false,Bool.not_false,Bool.false_eq_true,↓reduceIte] at complete after unbroken unmissed
      obtain ⟨sameComplete,sameBreak,sameNext,_⟩ := checkTail_frame zone s now
        (verdict mac (left.take (windowLimit limit)) key (lastSignature [] checked) false)
      simp only [more,decide_false,complete,unbroken,and_self,↓reduceIte,sameNext,after]
      refine clean_one (sameBreak.trans unbroken) ?_ (sameComplete.trans complete)
      exact (checkTail_missing zone s now unmissed).mpr tail

theorem clean_first (intact : Intact mac zone key s) (clean : Clean (VerifyLog mac zone s limit now)) :
    (pageResult mac zone s key (windowLimit limit) now [] s.rows).chainBreak = none ∧
    (pageResult mac zone s key (windowLimit limit) now [] s.rows).tailMissing = false := by
  have first : VerifyRange mac zone s ⟨zeroTime,zeroTime,[],limit⟩ now = _ := verifyRange_page intact (nil_append _).symm limit now
  unfold VerifyLog followWindows at clean
  rw [first] at clean
  obtain ⟨res,same,unbroken,unmissed⟩ := clean.1 _ mem_cons_self
  cases same
  exact ⟨unbroken,unmissed⟩

theorem last_signature_filled {prev} (chain : Chain mac key prev entries) (filled : entries ≠ []) : lastSignature prev entries ≠ [] := by
  rw [lastSignature,getLast?_eq_some_getLast filled]
  change (entries.getLast filled).signature ≠ []
  rw [chain_signature chain (getLast_mem filled)]
  exact signEntry_filled mac _ key

theorem cut_log_breaks (intact : Intact mac zone key s) (cut : s.gone ≠ []) (left : s.rows ≠ []) (limit : Int) :
    VerifyChain mac (s.rows.take (windowLimit limit)) key [] ≠ none := by
  obtain ⟨stored,_⟩ := (chain_append mac).mp intact.chain
  obtain ⟨deleted,rest⟩ := (chain_append mac).mp stored
  rw [ne_eq,verifyChain_none]
  rintro ⟨_,linked,_⟩
  obtain ⟨n,positive⟩ := Nat.exists_eq_succ_of_ne_zero (Nat.ne_of_gt (windowLimit_pos limit))
  cases rows : s.rows with
  | nil => exact left rows
  | cons e later =>
    rw [rows,positive,take_succ_cons] at linked
    rw [rows] at rest
    exact last_signature_filled deleted cut (rest.1.1.symm.trans linked.1)

theorem empty_log_misses (intact : Intact mac zone key s) (cut : s.gone ≠ []) (empty : s.rows = [])
    (recent : ¬anchorExpired zone s.manager now) : ¬TailFound zone s now := by
  have anchor := intact.anchor
  rw [empty,append_nil,Anchored,getLast?_eq_some_getLast cut] at anchor
  rintro (unnamed | expired | stored)
  · have named := intact.uuids _ (mem_append_left _ (mem_append_left _ (getLast_mem cut)))
    rw [← anchor.1,unnamed] at named
    cases named
  · exact recent expired
  · simp [empty] at stored

theorem verify_exact (intact : Intact mac zone key s) (limit now : Int) : Clean (VerifyLog mac zone s limit now) ↔
      s.gone = [] ∨ s.rows = [] ∧ anchorExpired zone s.manager now := by
  constructor
  · intro clean
    obtain ⟨unbroken,unmissed⟩ := clean_first intact clean
    by_contra deleted
    rw [not_or,not_and] at deleted
    unfold pageResult at unbroken unmissed
    by_cases empty : s.rows = []
    · have verified : VerifyChain mac [] key [] = none := (verifyChain_none _ _ _ _).mpr ⟨intact.on.filled,trivial,by simp⟩
      obtain ⟨fine,found,complete,_⟩ := verdict_intact mac verified false
      simp only [empty,take_nil,length_nil,Nat.not_lt_zero,decide_false] at unmissed
      rw [if_pos ⟨complete,fine⟩,checkTail_missing zone s now found] at unmissed
      exact empty_log_misses intact deleted.1 empty (deleted.2 empty) unmissed
    · have broken := verdict_broken mac (cut_log_breaks intact deleted.1 empty limit)
        (decide (windowLimit limit < s.rows.length))
      rw [if_neg fun both => broken both.2] at unbroken
      exact broken unbroken
  · intro kept
    obtain ⟨stored,_⟩ := (chain_append mac).mp intact.chain
    have chain : Chain mac key [] s.rows := by
      rcases kept with whole | ⟨empty,_⟩
      · rwa [whole,nil_append] at stored
      · rw [empty]; exact ⟨trivial,by simp⟩
    have tail : TailFound zone s now := by
      rcases kept with whole | ⟨_,expired⟩
      · have anchor := intact.anchor
        rw [whole,nil_append] at anchor
        unfold Anchored at anchor
        split at anchor
        · rename_i e last
          exact .inr (.inr (by rw [anchor.1]; exact List.mem_map_of_mem (mem_of_getLast? last)))
        · exact .inl anchor.1
      · exact .inr (.inl expired)
    exact windows_clean intact tail chain (nil_append _).symm (Nat.lt_succ_self _) limit

theorem retention_verdict_exact (mac : Mac) (zone : Zone K) (config : AuditConfig) (chunk : Nat) (logDays limit now : Int)
    (enabled : config.enabled = true) (signing : config.signEntries = true) (filled : config.signatureKey ≠ [])
    (path : Reached (step zone mac) (Orderly zone) (started config chunk logDays) s) :
    Clean (VerifyLog mac zone s limit now) ↔
      s.gone = [] ∨ s.rows = [] ∧ anchorExpired zone s.manager now = true :=
  verify_exact (reached_intact enabled signing filled path fun _ _ meets => meets) limit now

def day : Int := 24*hour
def draftLate : Draft := draft "00000000-0000-0000-0000-00000000000d" (10 * day) (by decide)
def twoRows : List Event := [.log draftA,.store 0,.log draftLate,.store 0]

theorem retention_verdict_kept : ∃ s,
    runAllowed (step civil .transparent) (Orderly civil) (started signingConfig 0 0) (twoRows ++ [.setDays 30 0,.retire (10 * day) 1]) = some s ∧
    s.rows.length = 2 ∧ Clean (VerifyLog .transparent civil s 1 (10 * day)) := by
  refine shown_some (fun s => (s.rows.length,s.gone)) (2,[]) (by decide +kernel) fun s ran same => ?_
  obtain ⟨two,whole⟩ := Prod.mk.inj same
  exact ⟨two,(retention_verdict_exact .transparent civil signingConfig 0 0 1 (10 * day) rfl rfl (by decide)
    (runAllowed_reached ran)).mpr (.inl whole)⟩

-- A day of audit retention deletes the first row; a day of log retention, all of them.
theorem retention_reported_as_tampering :
    ((run (step civil .transparent) (started signingConfig 0 0) (twoRows ++ [.setDays 1 0,.retire (10 * day) 1])).map
      (fun s => (VerifyLog .transparent civil s 0 (10 * day)).map fun r => r.toOption.map (·.chainBreak))) =
      some [some (some ⟨0,lit "00000000-0000-0000-0000-00000000000d",wrongPrevious⟩)] ∧
    ((run (step civil .transparent) (started signingConfig 0 0)
        [.log draftA,.store 0,.setDays 30 1,.retire (10 * day) 1]).map
      (fun s => (VerifyLog .transparent civil s 0 (10 * day)).map fun r => r.toOption.map (·.tailMissing))) =
      some [some true] := by
  decide +kernel

end Gateon.Audit
