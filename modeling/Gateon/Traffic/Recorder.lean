import Gateon.Go.Http

namespace Gateon.Traffic
open Go

structure Recorder where
  client : Client
  status : Nat
  header : Header
  body : GoString
  maxBody : Nat
  wrote : Nat
  wroteHeader : Bool
  truncated : Bool

def Recorder.new (client : Client) (maxBody : Nat) : Recorder := ⟨client,200,fun _ => [],[],maxBody,0,false,false⟩

namespace Recorder
variable (r : Recorder)
include r

def writeHeader (code : Nat) : Recorder :=
  if r.wroteHeader then r
  else
    let client := {r.client with header := fun k => r.client.header k ++ r.header k}
    {r with wroteHeader := true,status := code,client := client.writeHeader code}

def record (p : GoString) : Recorder :=
  if r.maxBody < r.wrote + p.length then {r with truncated := true}
  else {r with body := r.body ++ p,wrote := r.wrote + p.length}

def write (p : GoString) : Recorder :=
  let r := r.writeHeader r.status
  record {r with client := r.client.write p} p

def flush : Recorder := {r with client := r.client.flush}
def commitHeader : Recorder := r.writeHeader r.status

def call : Call → Recorder
  | .edit name f => {r with header := Header.edit r.header name f}
  | .writeHeader code => r.writeHeader code
  | .write b => r.write b
  | .flush => r.flush

end Recorder

def cacheWrapper (maxBody : Nat) : Wrapper where
  State := Recorder
  start := fun outer => Recorder.new (Client.new outer) maxBody
  call := Recorder.call
  returns := fun r _ => (r.commitHeader,false)
  client := Recorder.client
  passes := fun _ => true

-- Before the headers only edits of names nobody outside has set.
def Recorder.Careful (r : Recorder) : Handled → Prop
  | .call (.edit name _) => r.wroteHeader ∨ r.client.header (canonicalMIMEHeaderKey name) = []
  | .call (.writeHeader code) => r.wroteHeader ∨ informational code = false
  | .call .flush => r.wroteHeader
  | _ => True

instance Recorder.decidableCareful : ∀ r e, Decidable (Recorder.Careful r e) := by
  intros
  unfold Recorder.Careful
  split <;> infer_instance

instance Recorder.decidableAllowed (x : Exchange (cacheWrapper n)) (e : Handled) : Decidable (x.allowed Recorder.Careful e) :=
  Recorder.decidableCareful x.wrapped e

structure Unwritten (outer : Header) (r : Recorder) (p : Client) : Prop where
  unwritten : r.wroteHeader = false
  below : r.client = Client.new outer
  status : r.status = 200
  header : ∀ k, p.header k = outer k ++ r.header k
  apart : ∀ k, r.header k ≠ [] → outer k = []
  unsent : p.sent = none
  empty : p.body = []

def RecorderRelated (outer : Header) (r : Recorder) (p : Client) : Prop :=
  Unwritten outer r p ∨ (r.wroteHeader ∧ Together r.client p)

theorem Unwritten.writeHeader (before : Unwritten outer r p) (final : informational code = false) :
    (r.writeHeader code).wroteHeader ∧ Together (r.writeHeader code).client (p.writeHeader code) := by
  have written : r.writeHeader code = {r with
      wroteHeader := true,status := code,
      client := {r.client with header := fun k => r.client.header k ++ r.header k}.writeHeader code} := by
    simp [Recorder.writeHeader,before.unwritten]
  have header : p.header = fun k => outer k ++ r.header k := funext before.header
  rw [written,before.below]
  refine ⟨rfl,?_⟩
  rw [writeHeader_final before.unsent final,writeHeader_final rfl final]
  exact ⟨by simp [header,Client.new],rfl,before.empty.symm⟩

theorem Unwritten.edit (before : Unwritten outer r p) (name : GoString) (f : List GoString → List GoString)
    (free : outer (canonicalMIMEHeaderKey name) = []) : Unwritten outer (r.call (.edit name f)) (p.edit name f) := by
  refine {before with header := ?_,apart := ?_}
  · intro k
    simp only [Client.edit,Recorder.call,Header.edit,Function.update_apply]
    split
    · rename_i here
      subst here
      rw [before.header,free,List.nil_append,List.nil_append]
    · exact before.header k
  · intro k filled
    simp only [Recorder.call,Header.edit,Function.update_apply] at filled
    split at filled
    · rename_i here; exact here ▸ free
    · exact before.apart k filled

theorem record_client (r : Recorder) (b : GoString) : (r.record b).client = r.client ∧ (r.record b).wroteHeader = r.wroteHeader := by
  unfold Recorder.record
  split <;> exact ⟨rfl,rfl⟩

theorem recorder_call (related : RecorderRelated outer r p) (careful : r.Careful (.call made)) :
    RecorderRelated outer (r.call made) (p.call made) := by
  rcases related with before | ⟨written,together⟩
  · have unwritten := before.unwritten
    cases made with
    | edit name f =>
      have free : outer (canonicalMIMEHeaderKey name) = [] := by
        simpa [Recorder.Careful,unwritten,before.below,Client.new] using careful
      exact .inl (before.edit name f free)
    | writeHeader code =>
      have final : informational code = false := by simpa [Recorder.Careful,unwritten] using careful
      exact .inr (before.writeHeader final)
    | write b =>
      obtain ⟨written,together⟩ := before.writeHeader ok_final
      obtain ⟨client,wrote⟩ := record_client {r.writeHeader 200 with client := (r.writeHeader 200).client.write b} b
      refine .inr ?_
      rw [Client.call,write_opened p,Recorder.call,Recorder.write,before.status]
      exact ⟨wrote.trans written,client ▸ together.write b⟩
    | flush => simp [Recorder.Careful,unwritten] at careful
  · refine .inr ?_
    have still : ∀ code, r.writeHeader code = r := fun code => by simp [Recorder.writeHeader,written]
    cases made with
    | edit name f => exact ⟨written,together.edit name f⟩
    | writeHeader code => rw [Recorder.call,still]; exact ⟨written,together.plain code⟩
    | write b =>
      obtain ⟨client,wrote⟩ := record_client {r with client := r.client.write b} b
      rw [Recorder.call,Recorder.write,still]
      exact ⟨wrote.trans written,client ▸ together.write b⟩
    | flush => exact ⟨written,together.late 200 200⟩

def cacheSimulation (maxBody : Nat) : Simulation (cacheWrapper maxBody) Recorder.Careful where
  Related := RecorderRelated
  starts := fun outer => .inl ⟨rfl,rfl,rfl,fun k => (List.append_nil _).symm,fun _ filled => absurd rfl filled,rfl,rfl⟩
  calls := recorder_call
  ends := by
    intro outer r p done related _ _ _
    have same : r.commitHeader.client.result = p.result := by
      unfold Recorder.commitHeader
      rcases related with before | ⟨written,together⟩
      · rw [before.status]; exact (before.writeHeader ok_final).2.result.trans (finish_result p)
      · simp only [Recorder.writeHeader,written]; exact together.result
    exact same
  again := fun _ _ more => Bool.noConfusion more

end Gateon.Traffic
