import Gateon.Ebpf.Leases
import Gateon.Telemetry.Shun

namespace Gateon.KernelShun
open Ebpf Shun Transition Option
open Go (second minute hour)
open Function (update update_self update_of_ne)

variable {K : Type} [DecidableEq K]

structure Node (K : Type) where
  clock : Int
  rows : K → Option Row
  holder : Holder K

def Node.start (clock : Int) : Node K := ⟨clock,fun _ => none,.empty⟩
def blockEnd (clock duration : Int) : End := if 0 < duration then some (sqlUTC clock + duration) else none
section
variable (s : Node K)

def Node.push (k : K) (row : Row) (ends : End) : Node K :=
  {s with rows := update s.rows k (some row), holder := s.holder.shun k ends}
def Node.block (k : K) (duration : Int) : Node K :=
  s.push k (markIPMitigated (s.rows k) (sqlUTC s.clock) (blockEnd s.clock duration)) (blockEnd s.clock duration)

def Node.shunAutomatically (k : K) : Node K :=
  match Shun.shunAutomatically (s.rows k) s.clock with
  | .apply now ends =>
    match writeAutoShun (s.rows k) now ends with
    | some row => s.push k row (some ends)
    | none => s
  | _ => s

def Node.release (k : K) : Node K :=
  {s with rows := update s.rows k (releaseIPMitigation (s.rows k) s.clock), holder := s.holder.unshunIP k}
def Node.sweep : Node K := {s with holder := s.holder.expireShuns s.clock}

inductive Event (K : Type) where
  | tick (d : Nat)
  | block (k : K) (duration : Int)
  | auto (k : K)
  | release (k : K)
  | sweep

def step : Event K → Option (Node K)
  | .tick d => some {s with clock := s.clock + d}
  | .block k duration => some (s.block k duration)
  | .auto k => some (s.shunAutomatically k)
  | .release k => some (s.release k)
  | .sweep => some s.sweep

def covers (ends old : End) : Bool :=
  match ends,old with
  | none,_ => true
  | some _,none => false
  | some b,some a => decide (a ≤ b)

-- A block does not end before the one in force that it replaces, and lasts whole seconds.
def Careful : Event K → Prop
  | .block k duration => (0 < duration → second ∣ duration) ∧
      ∀ r, s.rows k = some r → r.inForceAt s.clock → covers (blockEnd s.clock duration) r.expiresAt
  | _ => True

def Sound : Prop := ∀ k, s.sweep.holder.kernel k = inForce (s.rows k) s.clock

-- An address's row, kernel entry and lease: the lease ends with the row's block, or both are past.
structure Agrees (clock : Int) (row : Option Row) (kernel : Bool) (lease : Option End) : Prop where
  held : kernel = lease.isSome
  whole : ∀ r, row = some r → (∀ m, r.mitigatedAt = some m → second ∣ m) ∧ ∀ e, r.expiresAt = some e → second ∣ e
  same : (∃ r, row = some r ∧ r.status = .mitigated ∧ lease = some r.expiresAt) ∨
    inForce row clock = false ∧ ∀ e, lease = some e → lapsed e clock

def Inv : Prop := ∀ k, Agrees s.clock (s.rows k) (s.holder.kernel k) (s.holder.lease k)

end

theorem Row.inForceAt_mitigated {r : Row} (status : r.status = .mitigated) (now : Int) : r.inForceAt now = !lapsed r.expiresAt now := by
  unfold Row.inForceAt lapsed
  rw [status]
  cases r.expiresAt with
  | none => rfl
  | some e => apply Bool.eq_iff_iff.mpr; simp

theorem inForce_later {row : Option Row} (past : inForce row clock = false) (later : clock ≤ now) : inForce row now = false := by
  cases row with
  | none => rfl
  | some r =>
    show r.inForceAt now = false
    have before : r.inForceAt clock = false := past
    cases status : r.status with
    | unmitigated => simp [Row.inForceAt,status]
    | mitigated =>
      rw [Row.inForceAt_mitigated status,Bool.not_eq_false'] at before ⊢
      exact lapsed_later before later

theorem Agrees.later (h : Agrees clock row kernel lease) (later : clock ≤ now) : Agrees now row kernel lease := by
  refine ⟨h.held,h.whole,h.same.imp_right ?_⟩
  intro ⟨past,gone⟩
  exact ⟨inForce_later past later,fun e held => lapsed_later (gone e held) later⟩

theorem Agrees.swept (h : Agrees clock row kernel lease) : (kernel && !lease.any fun e => lapsed e clock) = inForce row clock := by
  rw [h.held]
  rcases h.same with ⟨r,rfl,status,rfl⟩ | ⟨past,gone⟩
  · exact (Row.inForceAt_mitigated status clock).symm
  rw [past]
  cases lease with
  | none => rfl
  | some e => simp [gone e rfl]

theorem latest_covers (covered : covers ends old) : latest old ends = ends := by
  cases ends with
  | none => cases old <;> rfl
  | some b =>
    cases old with
    | none => cases covered
    | some a => exact congrArg some (max_eq_right (of_decide_eq_true covered))

theorem Agrees.kept (h : Agrees clock row kernel lease) (runs : lapsed ends clock = false)
    (covered : ∀ r, row = some r → r.inForceAt clock → covers ends r.expiresAt) : shuns.kept lease ends = ends := by
  cases lease with
  | none => rfl
  | some old =>
    have made : shuns.Made 0 old := trivial
    have merged : shuns.kept (some old) ends = latest old ends := shuns.keep_ends made
    rw [merged]
    cases past : lapsed old clock with
    | true => exact latest_running past runs
    | false =>
      rcases h.same with ⟨r,held,status,same⟩ | ⟨_,gone⟩
      · cases same
        apply latest_covers (covered r held _)
        rw [Row.inForceAt_mitigated status,past]
        rfl
      · rw [gone old rfl] at past; cases past

theorem Inv.push {s : Node K} (h : Inv s) (ends : End) (runs : lapsed ends s.clock = false) (whole : ∀ e, ends = some e → second ∣ e)
    (covered : ∀ r, s.rows k = some r → r.inForceAt s.clock → covers ends r.expiresAt) :
    Inv (s.push k (markIPMitigated (s.rows k) (sqlUTC s.clock) ends) ends) := by
  intro other
  by_cases same : other = k
  · subst same
    have stored : ends.map sqlUTC = ends := by
      cases ends with
      | none => rfl
      | some e => exact congrArg some (sqlUTC_whole (whole e rfl))
    have lease : (s.holder.shun other ends).lease other = some ends :=
      (lease_shun ..).trans (congrArg some ((h other).kept runs covered))
    have row : update s.rows other (some (markIPMitigated (s.rows other) (sqlUTC s.clock) ends)) other =
        some ⟨.mitigated,some (sqlUTC (sqlUTC s.clock)),ends,unmitigatedAt (s.rows other)⟩ := by
      rw [update_self,markIPMitigated,stored]
    show Agrees s.clock (update s.rows other _ other) (update s.holder.kernel other true other) ((s.holder.shun other ends).lease other)
    rw [lease,row,update_self]
    refine ⟨rfl,?_,.inl ⟨_,rfl,rfl,rfl⟩⟩
    rintro _ ⟨⟩
    refine ⟨?_,whole⟩
    rintro _ ⟨⟩
    exact sqlUTC_dvd _
  · show Agrees s.clock (update s.rows k _ other) (update s.holder.kernel k true other) ((s.holder.shun k ends).lease other)
    rw [update_of_ne same,update_of_ne same,lease_shun_other _ _ same]
    exact h other

theorem Inv.block {s : Node K} (h : Inv s) (meets : Careful s (.block k duration)) : Inv (s.block k duration) := by
  refine h.push _ ?_ ?_ meets.2
  · unfold blockEnd
    split
    · rename_i lasts
      have whole := meets.1 lasts
      have near := sqlUTC_near s.clock
      obtain ⟨n,rfl⟩ := whole
      simp only [lapsed,decide_eq_false_iff_not]
      unfold second at *
      omega
    · rfl
  · intro e ends
    unfold blockEnd at ends
    split at ends
    · cases ends; exact Int.dvd_add (sqlUTC_dvd _) (meets.1 ‹_›)
    · cases ends

theorem nextShunDuration_base (r : Option Row) (now : Int) : autoShunBase ≤ Shun.nextShunDuration r now := by
  cases r with
  | none => exact le_rfl
  | some r =>
    show autoShunBase ≤ r.nextShunDuration now
    unfold Row.nextShunDuration autoShunCap autoShunBase hour minute second
    split
    · split <;> omega
    · exact le_rfl

theorem nextShunDuration_whole (whole : ∀ r, row = some r → (∀ m, r.mitigatedAt = some m → second ∣ m) ∧ ∀ e, r.expiresAt = some e → second ∣ e)
    (now : Int) : second ∣ Shun.nextShunDuration row now := by
  have base : second ∣ autoShunBase := ⟨15*60,rfl⟩
  cases row with
  | none => exact base
  | some r =>
    show second ∣ r.nextShunDuration now
    unfold Row.nextShunDuration
    split
    · rename_i e m _ ends began
      obtain ⟨a,starts⟩ := (whole r rfl).1 m began
      obtain ⟨b,stops⟩ := (whole r rfl).2 e ends
      split
      · exact base
      · unfold autoShunCap autoShunBase hour minute second at *; omega
    · exact base

theorem Inv.auto {s : Node K} (h : Inv s) (k : K) : Inv (s.shunAutomatically k) := by
  unfold Node.shunAutomatically Shun.shunAutomatically
  dsimp only
  split
  · rename_i decided
    split at decided
    · cases decided
    split at decided
    · cases decided
    rename_i free _
    cases decided
    split
    · rename_i row lands
      rw [written_row lands]
      have lasts := nextShunDuration_base (s.rows k) (sqlUTC s.clock)
      have near := sqlUTC_near s.clock
      refine h.push _ ?_ ?_ ?_
      · simp only [lapsed,decide_eq_false_iff_not]
        unfold autoShunBase minute second at *
        omega
      · rintro _ ⟨⟩; exact Int.dvd_add (sqlUTC_dvd _) (nextShunDuration_whole (h k).whole _)
      intro r held runs
      have gone : inForce (s.rows k) s.clock = false := inForce_later (Bool.eq_false_of_not_eq_true free) (sqlUTC_le _)
      rw [held] at gone
      cases runs.symm.trans gone
    · exact h
  · exact h

theorem released_past (row : Option Row) (now clock : Int) : inForce (releaseIPMitigation row now) clock = false := by
  cases row <;> rfl

theorem Agrees.release (h : Agrees clock row kernel lease) (now : Int) : Agrees clock (releaseIPMitigation row now) false none := by
  refine ⟨rfl,?_,.inr ⟨released_past ..,nofun⟩⟩
  intro r held
  obtain ⟨old,before,rfl⟩ := map_eq_some_iff.mp held
  exact ⟨(h.whole old before).1,nofun⟩

theorem Inv.release (h : Inv s) (k : K) : Inv (s.release k) := by
  intro other
  by_cases same : other = k
  · subst same
    show Agrees s.clock (update s.rows other _ other) ((s.holder.unshunIP other).kernel other) ((s.holder.unshunIP other).lease other)
    obtain ⟨kernel,lease⟩ := unshunIP_same (h other).held
    rw [update_self,kernel,lease]
    exact (h other).release s.clock
  · show Agrees s.clock (update s.rows k _ other) ((s.holder.unshunIP k).kernel other) ((s.holder.unshunIP k).lease other)
    obtain ⟨kernel,lease⟩ := unshunIP_other s.holder same
    rw [update_of_ne same,kernel,lease]
    exact h other

theorem Agrees.sweep (h : Agrees clock row kernel lease) :
    Agrees clock row (kernel && !lease.any fun e => lapsed e clock) (lease.filter fun e => !lapsed e clock) := by
  have after := h.swept
  rw [h.held] at after ⊢
  cases lease with
  | none => exact ⟨rfl,h.whole,.inr ⟨after.symm,nofun⟩⟩
  | some e =>
    cases past : lapsed e clock with
    | true =>
      simp only [any_some,Option.filter,past] at after ⊢
      exact ⟨rfl,h.whole,.inr ⟨after.symm,nofun⟩⟩
    | false => simp only [any_some,Option.filter,past]; exact ⟨rfl,h.whole,h.same⟩

theorem Inv.sweep {s : Node K} (h : Inv s) : Inv s.sweep := by
  intro k
  show Agrees s.clock (s.rows k) ((s.holder.expireShuns s.clock).kernel k) ((s.holder.expireShuns s.clock).lease k)
  rw [kernel_expired,lease_expired]
  exact (h k).sweep

theorem step_inv {s t : Node K} (h : Inv s) (meets : Careful s e) (ran : step s e = some t) : Inv t := by
  cases e with
  | tick d => cases ran; exact fun k => (h k).later (Int.le_add_of_nonneg_right (Int.natCast_nonneg d))
  | block k duration => cases ran; exact h.block meets
  | auto k => cases ran; exact h.auto k
  | release k => cases ran; exact h.release k
  | sweep => cases ran; exact h.sweep

theorem Inv.start (clock : Int) : Inv (Node.start clock : Node K) := by
  intro k
  exact ⟨rfl,nofun,.inr ⟨rfl,nofun⟩⟩

theorem kernel_sound (clock : Int) (s : Node K) (path : Reached step Careful (Node.start clock) s) : Sound s := by
  have inv : Inv s := reached_invariant Inv (Inv.start clock) step_inv path
  intro k
  exact (kernel_expired ..).trans (inv k).swept

instance decidableCareful : ∀ (s : Node K) e, Decidable (Careful s e) := by
  intros
  unfold Careful
  split <;> infer_instance

def sampleBlocks : List (Event Nat) :=
  [.auto 1,.block 1 3600000000000,.block 2 0,.tick 3600000000000,.sweep,.auto 1,.sweep,.release 2,.auto 2]

theorem kernel_sound_blocks : ∃ s, runAllowed step Careful (Node.start hour) sampleBlocks = some s ∧
    [1,2].map s.sweep.holder.kernel = [true,false] ∧ Sound s := shown_run (by decide) fun s path => kernel_sound hour s path

-- An operator makes an open-ended block end after a minute; the kernel keeps the entry.
theorem shortened_block_kept : ∃ s, run step (Node.start hour) [.block 1 0,.block 1 minute,.tick 60000000000,.sweep] = some s ∧
    inForce (s.rows 1) s.clock = false ∧ s.holder.kernel 1 = true ∧ ¬ Sound s := by
  refine ⟨_,rfl,rfl,rfl,fun sound => ?_⟩
  have answer : true = false := sound 1
  cases answer

end Gateon.KernelShun
