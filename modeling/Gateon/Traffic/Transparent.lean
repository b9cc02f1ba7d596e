import Gateon.Traffic.Recorder
import Gateon.Traffic.Retry
import Gateon.Waf.ResponseRun
import Gateon.Waf.Transparent

namespace Gateon.Traffic
open Go Transition Option
open Transform (transformWrapper transformSimulation BodyTransformConfig)
open Waf.Response (wafWrapper wafSimulation Inspection)

abbrev CarefulRun (W : Wrapper) (careful : W.State → Handled → Prop) (outer : Header) : Exchange W → Prop :=
  Reached (Exchange.step W) (Exchange.allowed careful) (Exchange.start W outer)

theorem wrappers_transparent {F : Type} :
    (∀ attempts outer x, CarefulRun (retryWrapper attempts) RetryState.Careful outer x → x.Transparent) ∧
    (∀ maxBody outer x, CarefulRun (cacheWrapper maxBody) Recorder.Careful outer x → x.Transparent) ∧
    (∀ u cfg outer x, CarefulRun (transformWrapper u cfg) Transform.ResponseWriter.Careful outer x → x.Transparent) ∧
    ∀ t : Inspection F, (∀ given, (t.engine given).blocked = false) →
      ∀ outer x, CarefulRun (wafWrapper t) Waf.Response.Writer.Careful outer x → x.Transparent :=
  ⟨fun attempts _ _ => (retrySimulation attempts).transparent,fun maxBody _ _ => (cacheSimulation maxBody).transparent,
    fun _ cfg _ _ => (transformSimulation cfg).transparent,fun _ calm _ _ => (wafSimulation calm).transparent⟩

def sampleTransform : BodyTransformConfig := ⟨[],[],lit "a",lit "b",[]⟩
def sampleCalm : Inspection Nat := Waf.Response.sampleInspection fun _ => false
def samplePage : List Handled :=
  [.call (.edit (lit "X-Page") fun _ => [lit "1"]),.call (.writeHeader 404),.call (.write (lit "no page")),.call .flush,.returns false]
def statuses (W : Wrapper) (x : Exchange W) : Bool × Option Nat × Option Nat :=
  (x.returned && W.passes x.wrapped,(W.client x.wrapped).result.1.map Prod.fst,x.plain.result.1.map Prod.fst)

theorem transparent_pages :
    (∃ x, runAllowed (Exchange.step (retryWrapper 2)) (Exchange.allowed RetryState.Careful) (Exchange.start _ fun _ => [])
        (.call (.writeHeader 503) :: .returns false :: samplePage) = some x ∧ statuses _ x = (true,some 404,some 404) ∧ x.Transparent) ∧
    (∃ x, runAllowed (Exchange.step (cacheWrapper 1024)) (Exchange.allowed Recorder.Careful) (Exchange.start _ fun _ => []) samplePage = some x ∧
      statuses _ x = (true,some 404,some 404) ∧ x.Transparent) ∧
    (∃ x, runAllowed (Exchange.step (transformWrapper .ascii sampleTransform)) (Exchange.allowed Transform.ResponseWriter.Careful)
        (Exchange.start _ fun _ => []) samplePage = some x ∧ statuses _ x = (true,some 404,some 404) ∧ x.Transparent) ∧
    ∃ x, runAllowed (Exchange.step (wafWrapper sampleCalm)) (Exchange.allowed Waf.Response.Writer.Careful) (Exchange.start _ fun _ => [])
        samplePage = some x ∧ statuses _ x = (true,some 404,some 404) ∧ x.Transparent := by
  refine ⟨?_,?_,?_,?_⟩
  · exact shown_run (by decide +kernel) fun x path => (wrappers_transparent (F := Nat)).1 _ _ _ path
  · exact shown_run (by decide +kernel) fun x path => (wrappers_transparent (F := Nat)).2.1 _ _ _ path
  · exact shown_run (by decide +kernel) fun x path => (wrappers_transparent (F := Nat)).2.2.1 _ _ _ _ path
  · have calm : ∀ given, (sampleCalm.engine given).blocked = false := fun given => by
      simp [sampleCalm,Waf.Response.sampleInspection]
    exact shown_run (by decide +kernel) fun x path => (wrappers_transparent (F := Nat)).2.2.2 sampleCalm calm _ _ path

def sampleHeld : Transform.ResponseWriter :=
  ((Transform.ResponseWriter.new (Client.new fun _ => []) []).writeHeader .ascii 200).call .ascii (.edit (lit "Link") fun _ => [lit "a"])

theorem sampleHeld_large (large : Transform.maxBodyBytes < big.length) : (sampleHeld.write .ascii big).passthrough ∧
      (sampleHeld.write .ascii big).w.sent.map (fun sent => sent.2 (lit "Link")) = some [lit "a"] := by
  have large' : Transform.maxBodyBytes < sampleHeld.body.length + big.length := by
    rwa [show sampleHeld.body = [] from rfl,List.length_nil,Nat.zero_add]
  have through : sampleHeld.write .ascii big =
      {sampleHeld.startPassthrough with w := sampleHeld.startPassthrough.w.write big} := by
    rw [show sampleHeld.write .ascii big = sampleHeld.hold big from rfl,Transform.ResponseWriter.hold,if_neg (by decide),if_pos large']
  rw [through]
  exact ⟨rfl,rfl⟩

theorem late_edit_sent (large : Transform.maxBodyBytes < big.length) :
    ∃ x, run (Exchange.step (transformWrapper .ascii sampleTransform)) (Exchange.start _ fun _ => [])
        [.call (.writeHeader 200),.call (.edit (lit "Link") fun _ => [lit "a"]),.call (.write big),.returns false] = some x ∧
      ¬ x.Transparent := by
  refine ⟨_,rfl,fun transparent => ?_⟩
  obtain ⟨through,sent⟩ := sampleHeld_large large
  have ended : (sampleHeld.write .ascii big).finish .ascii (lit "a") (lit "b") = sampleHeld.write .ascii big := by
    rw [Transform.ResponseWriter.finish,if_pos through]
  have settled : (sampleHeld.write .ascii big).w.sent.isSome := by
    rw [← isSome_map (f := fun sent => sent.2 (lit "Link")),sent]
    rfl
  have linked : ((sampleHeld.write .ascii big).finish .ascii (lit "a") (lit "b")).w.result.1.map (fun sent => sent.2 (lit "Link")) =
      some [lit "a"] := by
    rw [ended,result_sent settled]
    exact sent
  have passed := transparent rfl ((congrArg _ ended).trans through)
  have same : some [lit "a"] = some [] := linked.symm.trans (congrArg (fun r => r.1.map fun sent => sent.2 (lit "Link")) passed)
  exact absurd same (by decide)

def Alters (W : Wrapper) (events : List Handled) : Prop :=
  ∃ x, run (Exchange.step W) (Exchange.start W fun _ => []) events = some x ∧ ¬ x.Transparent

-- An informational status, a flush before the first write, headers set late.
theorem wrappers_differ : Alters (retryWrapper 2) [.call (.writeHeader 103),.call (.writeHeader 404),.returns false] ∧
    Alters (cacheWrapper 1024) [.call (.edit (lit "Link") fun _ => [lit "a"]),.call .flush,.returns false] ∧
    Alters (transformWrapper .ascii sampleTransform) [.call (.writeHeader 200),.call (.edit (lit "Link") fun _ => [lit "a"]),
      .call (.write (List.replicate (Transform.maxBodyBytes + 1) 0)),.returns false] ∧
    Alters (wafWrapper sampleCalm) [.call (.writeHeader 103),.call (.writeHeader 404),.returns false] := by
  refine ⟨⟨_,rfl,?_⟩,⟨_,rfl,?_⟩,late_edit_sent (by simp),⟨_,rfl,?_⟩⟩
  · intro transparent
    have status := congrArg (fun r => r.1.map Prod.fst) (transparent rfl rfl)
    exact absurd status (by decide)
  · intro transparent
    have links := congrArg (fun r => r.1.map fun sent => sent.2 (lit "Link")) (transparent rfl rfl)
    exact absurd links (by decide)
  · intro transparent
    have status := congrArg (fun r => r.1.map Prod.fst) (transparent rfl rfl)
    exact absurd status (by decide)

end Gateon.Traffic
