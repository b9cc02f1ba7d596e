import Gateon.Transform.Chain

namespace Gateon.Traffic
open Go List
open Transform (Middleware Body pass edit_entry entry_eq upstream_entry)

def retryMaxBody : Nat := 64 * 2^10
def idempotent (method : GoString) : Bool :=
  [lit "GET",lit "HEAD",lit "OPTIONS",lit "PUT",lit "DELETE",lit "TRACE"].contains method

def retryableRequest (r : Transform.Request) (attempts : Int) : Option Body :=
  if attempts < 2 ∨ idempotent r.method = false ∨ Header.get r.header (lit "Upgrade") ≠ [] then none
  else
    match r.body with
    | .none => some (.whole [])
    | .whole b => if retryMaxBody < b.length then none else some (.whole b)
    | .broken _ => none

-- Whether it was discarded, and whether the context was done before the next.
structure Outcome where
  discarded : Bool
  done : Bool

section
variable (chain : List Middleware) (met : Nat → Outcome)

-- With `left` attempts to go after this one.
def serveWithRetries (body : Body) : Nat → Nat → Transform.Request → List Transform.Request
  | 0,_,r => [{r with body := body}]
  | left + 1,attempt,r =>
    let r := {r with body := body}
    if (met attempt).discarded && !(met attempt).done then
      r :: serveWithRetries body left (attempt + 1) (pass chain r).1
    else [r]

def entries (attempts : Int) (r : Transform.Request) : List Transform.Request :=
  match retryableRequest r attempts with
  | none => [r]
  | some body => serveWithRetries chain met body (attempts.toNat - 1) 1 r

def SameAttempts (rs : List Transform.Request) : Prop :=
  ∀ r ∈ rs, ∀ s ∈ rs, r.entry = s.entry ∧ (pass chain r).2.url.path = (pass chain s).2.url.path
def Retried (attempts : Int) (r : Transform.Request) : Prop :=
  (retryableRequest r attempts).isSome ∧ (met 1).discarded ∧ (met 1).done = false
def Leaves (body : Body) (r : Transform.Request) : Prop :=
  (pass chain {r with body := body}).1.url = r.url ∧ (pass chain {r with body := body}).1.header = r.header

end

theorem edit_method (m : Middleware) (r : Transform.Request) : (m.edit r).method = r.method := by
  cases m with
  | rewrite cfg => simp only [Middleware.edit,Transform.rewrite]; split <;> split <;> (try split) <;> rfl
  | addPrefix affix => simp only [Middleware.edit,Transform.addPrefix]; split <;> rfl
  | stripPrefix prefixes => simp only [Middleware.edit,Transform.stripPrefix]; split <;> rfl
  | bodyTransform cfg =>
    simp only [Middleware.edit]
    split
    · simp only [Transform.transformRequestBody]; split <;> (try split) <;> rfl
    · rfl
  | _ => rfl

theorem pass_method (chain : List Middleware) (r : Transform.Request) : (pass chain r).1.method = r.method := by
  induction chain generalizing r with
  | nil => rfl
  | cons m rest ih =>
    unfold Transform.pass
    split
    · exact edit_method m r
    · exact (ih _).trans (edit_method m r)

theorem pass_entry (chain : List Middleware) (same : Transform.Request.entry r = Transform.Request.entry s) :
    (pass chain r).1.entry = (pass chain s).1.entry ∧ (pass chain r).2.url = (pass chain s).2.url := by
  induction chain generalizing r s with
  | nil => exact ⟨same,(entry_eq.mp same).2.1⟩
  | cons m rest ih =>
    have edited := edit_entry m same
    unfold Transform.pass
    split
    · obtain ⟨method,url,header,body⟩ := entry_eq.mp edited
      obtain ⟨left,reached⟩ := ih (upstream_entry edited)
      exact ⟨entry_eq.mpr ⟨method,(entry_eq.mp left).2.1,header,body⟩,reached⟩
    · exact ih edited

theorem entries_same (leaves : Leaves chain body r) (left attempt : Nat) (start : Transform.Request)
    (begins : Transform.Request.entry {start with body := body} = Transform.Request.entry {r with body := body}) :
    ∀ e ∈ serveWithRetries chain met body left attempt start, e.entry = Transform.Request.entry {r with body := body} := by
  induction left generalizing attempt start with
  | zero =>
    intro e mem
    obtain rfl := mem_singleton.mp mem
    exact begins
  | succ left ih =>
    intro e mem
    unfold serveWithRetries at mem
    split at mem
    · rcases mem_cons.mp mem with rfl | later
      · exact begins
      · refine ih (attempt + 1) _ ?_ e later
        obtain ⟨method,url,header,_⟩ := entry_eq.mp (pass_entry chain begins).1
        exact entry_eq.mpr ⟨method.trans (pass_method chain _),url.trans leaves.1,header.trans leaves.2,rfl⟩
    · obtain rfl := mem_singleton.mp mem; exact begins

theorem retryable_attempts (found : retryableRequest r attempts = some body) : 2 ≤ attempts := by
  unfold retryableRequest at found
  split at found
  · cases found
  · omega

theorem same_once (chain : List Middleware) (r : Transform.Request) : SameAttempts chain [r] := by
  intro a memA b memB
  obtain rfl := mem_singleton.mp memA
  obtain rfl := mem_singleton.mp memB
  exact ⟨rfl,rfl⟩

theorem attempts_same (chain : List Middleware) (met : Nat → Outcome) (attempts : Int) (r : Transform.Request) :
    SameAttempts chain (entries chain met attempts r) ↔
      (Retried met attempts r → ∀ body ∈ retryableRequest r attempts, Leaves chain body r) := by
  unfold entries Retried
  cases found : retryableRequest r attempts with
  | none =>
    exact ⟨fun _ retried => absurd retried.1 (by simp),fun _ => same_once _ _⟩
  | some body =>
    have many := retryable_attempts found
    obtain ⟨left,more⟩ : ∃ left, attempts.toNat - 1 = left + 1 := ⟨attempts.toNat - 2,by omega⟩
    dsimp only
    rw [more]
    constructor
    · rintro same ⟨_,discarded,going⟩ other asked
      cases asked
      have again : serveWithRetries chain met body (left + 1) 1 r =
          {r with body := body} :: serveWithRetries chain met body left 2 (pass chain {r with body := body}).1 := by
        simp [serveWithRetries,discarded,going]
      have second : {(pass chain {r with body := body}).1 with body := body} ∈
          serveWithRetries chain met body left 2 (pass chain {r with body := body}).1 := by
        cases left with
        | zero => exact mem_singleton.mpr rfl
        | succ left =>
          unfold serveWithRetries
          split <;> exact mem_cons_self
      rw [again] at same
      have equal := (same _ (mem_cons_of_mem _ second) _ mem_cons_self).1
      exact ⟨(entry_eq.mp equal).2.1,(entry_eq.mp equal).2.2.1⟩
    · intro kept
      by_cases retried : (met 1).discarded = true ∧ (met 1).done = false
      · have leaves := kept ⟨rfl,retried⟩ body rfl
        have all : ∀ e ∈ serveWithRetries chain met body (left + 1) 1 r, e.entry = Transform.Request.entry {r with body := body} :=
          entries_same leaves (left + 1) 1 r rfl
        intro a memA b memB
        have same := (all a memA).trans (all b memB).symm
        exact ⟨same,congrArg URL.path (pass_entry chain same).2⟩
      · have once : serveWithRetries chain met body (left + 1) 1 r = [{r with body := body}] := by
          unfold serveWithRetries
          rw [if_neg]
          simpa using retried
        rw [once]
        exact same_once _ _

def sampleFailure : Nat → Outcome := fun _ => ⟨true,false⟩
def sampleGet : Transform.Request := ⟨lit "GET",⟨lit "/api/api/x",[]⟩,fun _ => [],.none,0⟩

-- The prefix is stripped from what the first attempt left.
theorem second_attempt_stripped : (entries [.stripPrefix [lit "/api"]] sampleFailure 2 sampleGet).map
        (fun r => (r.url.path,(pass [.stripPrefix [lit "/api"]] r).2.url.path)) =
      [(lit "/api/api/x",lit "/api/x"),(lit "/api/x",lit "/x")] ∧
    ¬ SameAttempts [.stripPrefix [lit "/api"]] (entries [.stripPrefix [lit "/api"]] sampleFailure 2 sampleGet) := by
  refine ⟨by decide,fun same => ?_⟩
  have reached := (same _ (get_mem _ ⟨0,by decide⟩) _ (get_mem _ ⟨1,by decide⟩)).2
  exact absurd reached (by decide)

def retryableStatus (code : Nat) : Bool := code == 502 || code == 503 || code == 504

structure AttemptWriter where
  w : Client
  header : Header
  committed : Bool
  discarded : Bool

def AttemptWriter.new (w : Client) : AttemptWriter := ⟨w,fun _ => [],false,false⟩
def overlay (dst header : Header) : Header := fun k => if header k = [] then dst k else header k

namespace AttemptWriter
variable (a : AttemptWriter)

def commit (code : Nat) : AttemptWriter :=
  if a.committed || a.discarded then a
  else {a with committed := true,w := {a.w with header := overlay a.w.header a.header}.writeHeader code}

def writeHeader (code : Nat) : AttemptWriter :=
  if a.committed || a.discarded then a
  else if retryableStatus code then {a with discarded := true}
  else a.commit code

def write (b : GoString) : AttemptWriter :=
  if a.discarded then a
  else
    let a := a.commit 200
    {a with w := a.w.write b}

def flush : AttemptWriter := if a.committed then {a with w := a.w.flush} else a
def edit (name : GoString) (f : List GoString → List GoString) : AttemptWriter :=
  if a.committed then {a with w := a.w.edit name f} else {a with header := Header.edit a.header name f}

def call : Call → AttemptWriter
  | .edit name f => a.edit name f
  | .writeHeader code => a.writeHeader code
  | .write b => a.write b
  | .flush => a.flush

end AttemptWriter

-- An attempt with `left` more to go after it, or the last one, on the client's own writer.
inductive RetryState where
  | attempt (a : AttemptWriter) (left : Nat)
  | last (w : Client)

def retryState (w : Client) : Nat → RetryState
  | 0 => .last w
  | left + 1 => .attempt (AttemptWriter.new w) left

def RetryState.call : RetryState → Call → RetryState
  | .attempt a left,made => .attempt (a.call made) left
  | .last w,made => .last (w.call made)

def RetryState.returns : RetryState → Bool → RetryState × Bool
  | .last w,_ => (.last w,false)
  | .attempt a left,done =>
    if !a.discarded then (.attempt (a.commit 200) left,false)
    else if done then (.attempt a left,false)
    else (retryState a.w left,true)

def RetryState.client : RetryState → Client
  | .attempt a _ => a.w
  | .last w => w

def retryWrapper (attempts : Nat) : Wrapper where
  State := RetryState
  start := fun outer => retryState (Client.new outer) (attempts - 1)
  call := RetryState.call
  returns := RetryState.returns
  client := RetryState.client
  passes := fun _ => true

-- As for the recorder, and the context is not done when an attempt fails.
def RetryState.Careful : RetryState → Handled → Prop
  | .last _,_ => True
  | .attempt a _,.call (.edit name _) => a.committed ∨ a.discarded ∨ a.w.header (canonicalMIMEHeaderKey name) = []
  | .attempt a _,.call (.writeHeader code) => a.committed ∨ a.discarded ∨ informational code = false
  | .attempt _ _,.call (.write _) => True
  | .attempt a _,.call .flush => a.committed ∨ a.discarded
  | .attempt a _,.returns done => a.discarded → done = false

instance RetryState.decidableCareful : ∀ s e, Decidable (RetryState.Careful s e)
  | .last _,_ => .isTrue trivial
  | .attempt a _,.call (.edit name _) =>
    inferInstanceAs (Decidable (a.committed = true ∨ a.discarded = true ∨ a.w.header (canonicalMIMEHeaderKey name) = []))
  | .attempt a _,.call (.writeHeader code) =>
    inferInstanceAs (Decidable (a.committed = true ∨ a.discarded = true ∨ informational code = false))
  | .attempt _ _,.call (.write _) => .isTrue trivial
  | .attempt a _,.call .flush => inferInstanceAs (Decidable (a.committed = true ∨ a.discarded = true))
  | .attempt a _,.returns done => inferInstanceAs (Decidable (a.discarded = true → done = false))

instance RetryState.decidableAllowed (x : Exchange (retryWrapper n)) (e : Handled) : Decidable (x.allowed RetryState.Careful e) :=
  RetryState.decidableCareful x.wrapped e

structure Fresh (outer : Header) (a : AttemptWriter) (p : Client) : Prop where
  open' : a.committed = false ∧ a.discarded = false
  below : a.w = Client.new outer
  header : p.header = overlay outer a.header
  apart : ∀ k, a.header k ≠ [] → outer k = []
  unsent : p.sent = none
  empty : p.body = []

def AttemptRelated (outer : Header) (a : AttemptWriter) (p : Client) : Prop :=
  Fresh outer a p ∨ (a.committed ∧ a.discarded = false ∧ Together a.w p) ∨
    (a.committed = false ∧ a.discarded ∧ a.w = Client.new outer)

def RetryRelated (outer : Header) : RetryState → Client → Prop
  | .last w,p => w = p
  | .attempt a _,p => AttemptRelated outer a p

theorem retryState_related (outer : Header) (left : Nat) : RetryRelated outer (retryState (Client.new outer) left) (Client.new outer) := by
  cases left with
  | zero => rfl
  | succ left => left; exact ⟨⟨rfl,rfl⟩,rfl,rfl,fun _ filled => absurd rfl filled,rfl,rfl⟩

theorem Fresh.commit (fresh : Fresh outer a p) (final : informational code = false) :
    (a.commit code).committed ∧ (a.commit code).discarded = false ∧ Together (a.commit code).w (p.writeHeader code) := by
  have committed : a.commit code =
      {a with committed := true,w := {a.w with header := overlay a.w.header a.header}.writeHeader code} := by
    simp [AttemptWriter.commit,fresh.open'.1,fresh.open'.2]
  rw [committed,fresh.below]
  refine ⟨rfl,fresh.open'.2,?_⟩
  rw [writeHeader_final fresh.unsent final,writeHeader_final rfl final]
  exact ⟨by simp [fresh.header,Client.new],rfl,fresh.empty.symm⟩

theorem Fresh.edit (fresh : Fresh outer a p) (name : GoString) (f : List GoString → List GoString)
    (free : outer (canonicalMIMEHeaderKey name) = []) : Fresh outer (a.edit name f) (p.edit name f) := by
  have edited : a.edit name f = {a with header := Header.edit a.header name f} := by simp [AttemptWriter.edit,fresh.open'.1]
  rw [edited]
  refine {fresh with header := ?_,apart := ?_}
  · funext k
    have before (k : GoString) : p.header k = overlay outer a.header k := congrFun fresh.header k
    simp only [Client.edit,Header.edit,overlay,Function.update_apply] at before ⊢
    split
    · rename_i here
      subst here
      rw [before,free]
      by_cases none' : a.header (canonicalMIMEHeaderKey name) = []
      · simp only [none',if_true]
        split
        · assumption
        · rfl
      · simp only [none',if_false]
        split
        · assumption
        · rfl
    · exact before k
  · intro k filled
    simp only [Header.edit,Function.update_apply] at filled
    split at filled
    · rename_i here; exact here ▸ free
    · exact fresh.apart k filled

theorem attempt_call (related : AttemptRelated outer a p) (careful : RetryState.Careful (.attempt a left) (.call made)) :
    AttemptRelated outer (a.call made) (p.call made) := by
  rcases related with fresh | ⟨committed,kept,together⟩ | ⟨uncommitted,discarded,below⟩
  · obtain ⟨uncommitted,kept⟩ := fresh.open'
    cases made with
    | edit name f =>
      have free : outer (canonicalMIMEHeaderKey name) = [] := by
        simpa [RetryState.Careful,uncommitted,kept,fresh.below,Client.new] using careful
      exact .inl (fresh.edit name f free)
    | writeHeader code =>
      have final : informational code = false := by simpa [RetryState.Careful,uncommitted,kept] using careful
      by_cases retry : retryableStatus code
      · refine .inr (.inr ?_)
        simp [AttemptWriter.call,AttemptWriter.writeHeader,uncommitted,kept,retry,fresh.below]
      have passed : a.call (.writeHeader code) = a.commit code := by
        simp [AttemptWriter.call,AttemptWriter.writeHeader,uncommitted,kept,retry]
      rw [passed]
      exact .inr (.inl (fresh.commit final))
    | write b =>
      obtain ⟨committed,kept',together⟩ := fresh.commit ok_final
      have passed : a.call (.write b) = {a.commit 200 with w := (a.commit 200).w.write b} := by
        simp [AttemptWriter.call,AttemptWriter.write,kept]
      rw [passed,Client.call,write_opened p]
      exact .inr (.inl ⟨committed,kept',together.write b⟩)
    | flush => simp [RetryState.Careful,uncommitted,kept] at careful
  · refine .inr (.inl ?_)
    cases made with
    | edit name f =>
      simp only [AttemptWriter.call,AttemptWriter.edit,committed,if_true]
      exact ⟨trivial,kept,together.edits name f⟩
    | writeHeader code =>
      simp only [AttemptWriter.call,AttemptWriter.writeHeader,committed,Bool.true_or,if_true]
      exact ⟨trivial,kept,together.plain code⟩
    | write b =>
      simp only [AttemptWriter.call,AttemptWriter.write,AttemptWriter.commit,committed,kept,Bool.true_or,if_true,Bool.false_eq_true,if_false]
      exact ⟨trivial,trivial,together.write b⟩
    | flush =>
      simp only [AttemptWriter.call,AttemptWriter.flush,committed,if_true]
      exact ⟨trivial,kept,together.late 200 200⟩
  · refine .inr (.inr ?_)
    cases made with
    | edit name f => simp [AttemptWriter.call,AttemptWriter.edit,uncommitted,discarded,below]
    | writeHeader code => simp [AttemptWriter.call,AttemptWriter.writeHeader,uncommitted,discarded,below]
    | write b => simp [AttemptWriter.call,AttemptWriter.write,uncommitted,discarded,below]
    | flush => simp [AttemptWriter.call,AttemptWriter.flush,uncommitted,discarded,below]

theorem attempt_ends (related : AttemptRelated outer a p) (kept : a.discarded = false) : (a.commit 200).w.result = p.result := by
  rcases related with fresh | ⟨committed,_,together⟩ | ⟨_,discarded,_⟩
  · exact (fresh.commit ok_final).2.2.result.trans (finish_result p)
  · rw [AttemptWriter.commit,committed,Bool.true_or,if_pos rfl]; exact together.result
  · cases kept.symm.trans discarded

def retrySimulation (attempts : Nat) : Simulation (retryWrapper attempts) RetryState.Careful where
  Related := RetryRelated
  starts := fun outer => retryState_related outer (attempts - 1)
  calls := by
    intro outer s p made related careful
    cases s with
    | last w => exact congrArg (Client.call · made) related
    | attempt a left => exact attempt_call related careful
  ends := by
    intro outer s p done related careful ended _
    cases s with
    | last w => exact congrArg Client.result related
    | attempt a left =>
      cases kept : a.discarded with
      | false =>
        have last : RetryState.returns (.attempt a left) done = (.attempt (a.commit 200) left,false) := by
          simp [RetryState.returns,kept]
        have same : (RetryState.client (RetryState.returns (.attempt a left) done).1).result = p.result := by
          rw [last]
          exact attempt_ends related kept
        exact same
      | true =>
        have more : (RetryState.returns (.attempt a left) done).2 := by
          simp [RetryState.returns,kept,careful kept]
        cases ended.symm.trans more
  again := by
    intro outer s p done related careful more
    cases s with
    | last w => cases more
    | attempt a left =>
      cases kept : a.discarded with
      | false =>
        have last : (RetryState.returns (.attempt a left) done).2 = false := by simp [RetryState.returns,kept]
        cases last.symm.trans more
      | true =>
        have next : RetryState.returns (.attempt a left) done = (retryState a.w left,true) := by
          simp [RetryState.returns,kept,careful kept]
        have below : a.w = Client.new outer := by
          rcases related with fresh | ⟨_,open',_⟩ | ⟨_,_,below⟩
          · exact fresh.below
          · cases open'.symm.trans kept
          · exact below
        have renewed : RetryRelated outer (RetryState.returns (.attempt a left) done).1 (Client.new outer) := by
          rw [next,below]
          exact retryState_related outer left
        exact renewed

end Gateon.Traffic
