import Gateon.Waf.Response

namespace Gateon.Waf.Response
open Go List

def Trace.reach (c : Client) : Trace → Client
  | .sent status header => {c with header := header}.writeHeader status
  | .wrote b => c.write b
  | .flushed => c.flush
  | _ => c

def received (log : List Trace) : Client := log.foldl Trace.reach (Client.new fun _ => [])

theorem received_append (a b : List Trace) : received (a ++ b) = b.foldl Trace.reach (received a) := foldl_append

theorem reach_quiet {more : List Trace} (quiet : ∀ x ∈ more, Trace.leaves x = false) (c : Client) : more.foldl Trace.reach c = c := by
  induction more generalizing c with
  | nil => rfl
  | cons x more ih =>
    have still := quiet x mem_cons_self
    rw [foldl_cons,ih (forall_mem_cons.mp quiet).2]
    cases x with
    | asked | counted => rfl
    | _ => cases still

section
variable (t : Inspection F)

def Writer.call (w : Writer) : Call → Writer
  | .edit name f => {w with header := Header.edit w.header name f}
  | .writeHeader code => writeHeader t w code
  | .write b => write t w b
  | .flush => flushCall w

def wafWrapper : Wrapper where
  State := Writer
  start := newWriter t
  call := Writer.call t
  returns := fun w _ => (finish t w,false)
  client := fun w => received w.log
  passes := fun _ => true

end

-- No informational response or flush before the headers, no edit while held back.
def Writer.Careful (w : Writer) : Handled → Prop
  | .call (.edit name f) => w.headerWritten = false ∨ w.flushed ∨
      f (w.header (canonicalMIMEHeaderKey name)) = w.header (canonicalMIMEHeaderKey name)
  | .call (.writeHeader code) => w.headerWritten ∨ informational code = false
  | .call .flush => w.headerWritten
  | _ => True

instance Writer.decidableCareful : ∀ w e, Decidable (Writer.Careful w e)
  | w,.call (.edit name f) => inferInstanceAs (Decidable (w.headerWritten = false ∨ w.flushed = true ∨
      f (w.header (canonicalMIMEHeaderKey name)) = w.header (canonicalMIMEHeaderKey name)))
  | w,.call (.writeHeader code) => inferInstanceAs (Decidable (w.headerWritten = true ∨ informational code = false))
  | _,.call (.write _) => .isTrue trivial
  | w,.call .flush => inferInstanceAs (Decidable (w.headerWritten = true))
  | _,.returns _ => .isTrue trivial

instance Writer.decidableAllowed {t : Inspection F} (x : Go.Exchange (wafWrapper t)) (e : Handled) :
    Decidable (x.allowed Writer.Careful e) :=
  Writer.decidableCareful x.wrapped e

def Writer.core (w : Writer) : Writer := {w.frame with inspected := false,bodyDecided := false}

structure Quiet (w w' : Writer) : Prop where
  core : w'.core = w.core
  log : ∃ more, w'.log = w.log ++ more ∧ ∀ x ∈ more, x.leaves = false

theorem Quiet.refl (w : Writer) : Quiet w w := ⟨rfl,[],(append_nil _).symm,nofun⟩

theorem Quiet.trans (first : Quiet u v) (second : Quiet v w) : Quiet u w := by
  obtain ⟨a,logA,quietA⟩ := first.log
  obtain ⟨b,logB,quietB⟩ := second.log
  exact ⟨second.core.trans first.core,a ++ b,by rw [logB,logA,append_assoc],forall_mem_append.mpr ⟨quietA,quietB⟩⟩

theorem Quiet.received (quiet : Quiet w w') : received w'.log = received w.log := by
  obtain ⟨more,log,still⟩ := quiet.log
  rw [log,received_append,reach_quiet still]

-- Such a step changes nothing but the fields that `core` clears.
theorem Quiet.shape {w w' : Writer} (quiet : Quiet w w') :
    ∃ i d n p c l, w' = {w with inspected := i,bodyDecided := d,uninspectedNoted := n,plain := p,plainComplete := c,log := l} :=
  ⟨_,_,_,_,_,_,congrArg (fun v : Writer => {v with
    inspected := w'.inspected
    bodyDecided := w'.bodyDecided
    uninspectedNoted := w'.uninspectedNoted
    plain := w'.plain
    plainComplete := w'.plainComplete
    log := w'.log}) quiet.core⟩

theorem quiet_note (w : Writer) (reason : Reason) : Quiet w (noteUninspectable w reason) := by
  unfold noteUninspectable
  split
  · exact .refl w
  · exact ⟨rfl,[.counted reason],rfl,by simp [Trace.leaves]⟩

variable {t : Inspection F}

theorem quiet_told (w : Writer) (given : Given) : Quiet w (told t w given) := ⟨rfl,[.asked given (answer t w given)],rfl,by simp [Trace.leaves]⟩

theorem quiet_cut (w : Writer) (inflated : Inflated) : Quiet w (noteCut w inflated) := by
  unfold noteCut
  split
  · exact quiet_note w _
  · exact .refl w

theorem quiet_inflated (w : Writer) (inflated : Inflated) : Quiet w (giveInflated t w inflated) :=
  ⟨rfl,[.asked (.body inflated.plain) (answer t w (.body inflated.plain))],rfl,by simp [Trace.leaves]⟩

def Lenient (t : Inspection F) : Prop := ∀ given, (t.engine given).blocked = false

theorem act_calm (calm : Lenient t) (w w' : Writer) (given : Given) : act t w (answer t w' given) = w := by
  unfold Lenient at calm
  simp [act,answer,calm]

section
variable (calm : Lenient t) (w : Writer)
include calm

theorem quiet_inspectPlain (inflated : Inflated) : Quiet w (inspectPlain t w inflated) := by
  unfold inspectPlain
  split
  · exact quiet_note w _
  split
  · exact quiet_cut w inflated
  rw [act_calm calm]
  dsimp only
  split
  · exact quiet_inflated w inflated
  · exact (quiet_inflated w inflated).trans (quiet_cut _ inflated)

theorem quiet_inspectHeld : Quiet w (inspectHeld t w) := by
  have marked : Quiet w {w with inspected := true} := ⟨rfl,[],(append_nil _).symm,nofun⟩
  unfold inspectHeld
  split
  · exact .refl w
  split
  · exact .refl w
  · split
    · exact marked.trans (quiet_inspectPlain calm _ _)
    · exact marked.trans (quiet_note _ _)

theorem quiet_processBody : Quiet w (processBody t w) := by
  have asked : Quiet w {told t w .ended with bodyDecided := true} :=
    ⟨rfl,[.asked .ended (answer t w .ended)],rfl,by simp [Trace.leaves]⟩
  simp only [processBody,act_calm calm]
  split
  · exact asked.trans (quiet_note _ _)
  · exact asked

theorem quiet_decideBody : Quiet w (decideBody t w) := by
  unfold decideBody
  dsimp only
  split
  · exact quiet_inspectHeld calm w
  · exact (quiet_inspectHeld calm w).trans (quiet_processBody calm _)

end

theorem processHeaders_calm (calm : Lenient t) (going : w.blocked = false) :
    ∃ w', Quiet w w' ∧ processHeaders t w = if w'.bufLimit = 0 then {commitHeader w' with flushed := true} else w' := by
  let v := told t w (.headers w.status w.header)
  have asked : Quiet w (if v.skipBody then decideBody t v else v) := by
    split
    · exact (quiet_told w _).trans (quiet_decideBody calm _)
    · exact quiet_told w _
  have still : (if v.skipBody then decideBody t v else v).blocked = false := by
    obtain ⟨i,d,n,p,c,l,same⟩ := asked.shape
    rw [same]
    exact going
  have open' : (answer t w (.headers w.status w.header)).blocked = false := calm _
  refine ⟨_,asked,?_⟩
  unfold processHeaders
  simp only [open',Bool.false_and,Bool.false_eq_true,if_false]
  exact if_neg (Bool.eq_false_iff.mp still)

theorem opened_fields (t : Inspection F) (w : Writer) (code : Nat) :
    (opened t w code).header = w.header ∧ (opened t w code).status = code ∧ (opened t w code).blocked = w.blocked ∧
      (opened t w code).headerWritten ∧ (opened t w code).flushed = w.flushed ∧ (opened t w code).pastCeiling = w.pastCeiling ∧
      (opened t w code).redactPending = w.redactPending ∧ (opened t w code).redacted = w.redacted ∧ (opened t w code).log = w.log := by
  unfold opened
  dsimp only
  split <;> split <;> simp

theorem opened_holds (t : Inspection F) (plain : w.skipBody = false) (holds : (opened t w code).bufLimit ≠ 0) :
    (opened t w code).buf = some [] ∧ (opened t w code).skipBody = false := by
  by_cases inspects : responseBodyInspectable t.tables (Header.get w.header (lit "Content-Type"))
  · by_cases room : 0 < w.bufLimit
    · simp [opened,inspects,room,plain]
    · simp only [opened,inspects,room,if_true,if_false] at holds
      exact absurd (Nat.pos_of_ne_zero holds) room
  · simp [opened,inspects] at holds

theorem status_known (final : informational status = false) : status ≠ 0 := by
  rintro rfl
  cases final

theorem commitHeader_sent (final : informational w.status = false) :
    commitHeader w = {w with log := w.log ++ [.sent w.status w.header]} := by
  simp [commitHeader,status_known final]

structure Idle (t : Inspection F) (w : Writer) (p : Client) : Prop where
  fresh : w = newWriter t w.header
  header : p.header = w.header
  unsent : p.sent = none
  empty : p.body = []

structure HeldBack (w : Writer) (p : Client) : Prop where
  written : w.headerWritten
  unsent : w.flushed = false
  going : w.blocked = false
  plain : w.skipBody = false
  within : w.pastCeiling = false
  settled : w.redactPending = false
  unredacted : w.redacted = none
  buf : w.buf = some p.body
  final : informational w.status = false
  sent : p.sent = some (w.status,w.header)
  log : received w.log = Client.new fun _ => []

structure Streams (w : Writer) (p : Client) : Prop where
  written : w.headerWritten
  sent : w.flushed
  going : w.blocked = false
  settled : w.redactPending = false
  together : Together (received w.log) p

abbrev Opened (w : Writer) (p : Client) : Prop := HeldBack w p ∨ Streams w p

theorem Idle.unwritten (idle : Idle t w p) : w.headerWritten = false ∧ w.blocked = false := by
  rw [idle.fresh]
  exact ⟨rfl,rfl⟩

theorem received_sent (log : received l = Client.new fun _ => []) (final : informational status = false) :
    received (l ++ [.sent status header]) = ⟨header,[],some (status,header),[]⟩ := by
  rw [received_append,log,foldl_cons,foldl_nil,Trace.reach]
  exact writeHeader_final rfl final

theorem Idle.writeHeader (calm : Lenient t) (idle : Idle t w p) (final : informational code = false) :
    Opened (writeHeader t w code) (p.writeHeader code) := by
  have fresh := idle.fresh
  obtain ⟨unwritten,going⟩ := idle.unwritten
  obtain ⟨header,status,blocked,written,flushed,ceiling,pending,redacted,log⟩ := opened_fields t w code
  obtain ⟨w',quiet,same⟩ := processHeaders_calm calm (blocked.trans going)
  have opens : Response.writeHeader t w code = processHeaders t (opened t w code) := by
    simp [Response.writeHeader,going,unwritten]
  have arrived : received w'.log = Client.new fun _ => [] := by rw [quiet.received,log,fresh]; rfl
  have settled : (opened t w code).redactPending = false := by rw [pending,fresh]; rfl
  have final' : informational (opened t w code).status = false := by rw [status]; exact final
  have line : some ((opened t w code).status,(opened t w code).header) = some (code,p.header) := by rw [status,header,idle.header]
  rw [opens,same,writeHeader_final idle.unsent final]
  obtain ⟨i,d,n,q,c,l,rfl⟩ := quiet.shape
  by_cases none' : (opened t w code).bufLimit = 0
  · rw [if_pos none',commitHeader_sent (by exact final')]
    refine .inr ⟨written,rfl,blocked.trans going,settled,?_⟩
    rw [received_sent arrived final']
    exact ⟨line,rfl,idle.empty.symm⟩
  · rw [if_neg none']
    have plain : w.skipBody = false := by rw [fresh]; rfl
    obtain ⟨buf,skip⟩ := opened_holds t plain none'
    refine .inl ⟨written,?_,blocked.trans going,skip,?_,settled,?_,buf.trans (congrArg some idle.empty.symm),final',line.symm,arrived⟩
    · exact flushed.trans (by rw [fresh]; rfl)
    · exact ceiling.trans (by rw [fresh]; rfl)
    · exact redacted.trans (by rw [fresh]; rfl)

theorem HeldBack.quiet (held : HeldBack w p) (quiet : Quiet w w') : HeldBack w' p := by
  have log := quiet.received.trans held.log
  obtain ⟨i,d,n,q,c,l,rfl⟩ := quiet.shape
  exact {held with log := log}

theorem Streams.quiet (streams : Streams w p) (quiet : Quiet w w') : Streams w' p := by
  have together := quiet.received ▸ streams.together
  obtain ⟨i,d,n,q,c,l,rfl⟩ := quiet.shape
  exact {streams with together := together}

theorem Streams.forward (streams : Streams w p) (b : GoString) : Streams (forward w b) (p.write b) := by
  refine {streams with together := ?_}
  have log : received (Response.forward w b).log = (received w.log).write b := received_append w.log [.wrote b]
  rw [log]
  exact streams.together.write b

theorem HeldBack.flush (held : HeldBack w p) : Streams (flush w) p := by
  rw [flush_held held.unsent held.unredacted held.buf (status_known held.final)]
  refine {held with sent := rfl,together := ?_}
  have first : received (w.log ++ [.sent w.status w.header]) = ⟨w.header,[],some (w.status,w.header),[]⟩ := received_sent held.log held.final
  have whole : received (w.log ++ .sent w.status w.header :: if p.body = [] then [] else [.wrote p.body]) =
      ⟨w.header,[],some (w.status,w.header),p.body⟩ := by
    rw [append_cons,received_append,first]
    split
    · rename_i none'
      rw [none']
      rfl
    · rfl
  rw [whole]
  exact ⟨held.sent.symm,by simp [held.sent],rfl⟩

theorem hold_related (calm : Lenient t) (related : Opened w p) (b : GoString) (inspected : Bool) :
    Opened (hold t w b inspected) (p.write b) := by
  rcases related with held | streams
  · have settled : p.sent.isSome := by simp [held.sent]
    unfold hold
    rw [held.buf]
    dsimp only
    rw [if_neg (by simp [held.unsent])]
    split
    · rw [write_late settled]; exact .inl {held with buf := rfl}
    have decided := held.quiet (quiet_decideBody calm w)
    simp only [passCeiling,ceilingPassed,decided.settled,decided.going,Bool.and_false,Bool.false_eq_true,if_false]
    have sent := decided.flush
    have past : Streams {flush (decideBody t w) with pastCeiling := true} p := {sent with}
    split
    · exact .inr (past.forward b)
    · exact .inr ((past.quiet (quiet_note _ _)).forward b)
  · refine .inr ?_
    unfold hold
    split
    · exact streams.forward b
    · rw [if_pos streams.sent]; exact streams.forward b

theorem writeBody_related (calm : Lenient t) (related : Opened w p) (b : GoString) : Opened (writeBody t w b) (p.write b) := by
  have going : w.blocked = false := by
    rcases related with held | streams
    · exact held.going
    · exact streams.going
  have quiet : ∀ {v}, Quiet w v → Opened v p := fun quiet => related.imp (·.quiet quiet) (·.quiet quiet)
  unfold writeBody
  rw [if_neg (by simp [going])]
  split
  · rename_i skip
    rcases related with held | streams
    · cases held.plain.symm.trans skip
    · exact .inr (streams.forward b)
  split
  · rename_i past
    rcases related with held | streams
    · cases held.within.symm.trans past
    · exact .inr ((streams.quiet (quiet_note _ _)).forward b)
  · split
    · have told' := quiet_told (t := t) w (.body b)
      have open' : (told t w (.body b)).blocked = false := going
      dsimp only
      rw [act_calm calm,if_neg (by simp [open'])]
      exact hold_related calm (quiet told') b true
    · exact hold_related calm related b false

def Related (t : Inspection F) (w : Writer) (p : Client) : Prop := Idle t w p ∨ HeldBack w p ∨ Streams w p

theorem Related.settled (related : Related t w p) : w.blocked = false ∧ w.redactPending = false := by
  rcases related with idle | held | streams
  · rw [idle.fresh]; exact ⟨rfl,rfl⟩
  · exact ⟨held.going,held.settled⟩
  · exact ⟨streams.going,streams.settled⟩

theorem call_related (calm : Lenient t) (related : Related t w p) (careful : w.Careful (.call made)) :
    Related t (w.call t made) (p.call made) := by
  cases made with
  | edit name f =>
    rcases related with idle | held | streams
    · left
      refine ⟨?_,congrArg (Header.edit · name f) idle.header,idle.unsent,idle.empty⟩
      have fresh := idle.fresh
      rw [Writer.call,fresh]
      rfl
    · have same : Header.edit w.header name f = w.header := by
        have kept : f (w.header (canonicalMIMEHeaderKey name)) = w.header (canonicalMIMEHeaderKey name) := by
          simpa [Writer.Careful,held.written,held.unsent] using careful
        rw [Header.edit,kept,Function.update_eq_self]
      refine .inr (.inl {held with sent := ?_})
      exact held.sent.trans (congrArg (fun h => some (w.status,h)) same.symm)
    · exact .inr (.inr {streams with together := streams.together.edit name f})
  | writeHeader code =>
    rcases related with idle | held | streams
    · have final : informational code = false := by simpa [Writer.Careful,idle.unwritten.1] using careful
      exact .inr (idle.writeHeader calm final)
    · have still : w.call t (.writeHeader code) = w := by simp [Writer.call,Response.writeHeader,held.written]
      rw [still,Client.call,writeHeader_late (by simp [held.sent])]
      exact .inr (.inl held)
    · have still : w.call t (.writeHeader code) = w := by simp [Writer.call,Response.writeHeader,streams.written]
      rw [still]
      exact .inr (.inr {streams with together := streams.together.plain code})
  | write b =>
    have opened : Opened (if w.headerWritten then w else Response.writeHeader t w 200) (p.writeHeader 200) := by
      rcases related with idle | held | streams
      · rw [if_neg (by simp [idle.unwritten.1])]; exact idle.writeHeader calm ok_final
      · rw [if_pos held.written,writeHeader_late (by simp [held.sent])]; exact .inl held
      · rw [if_pos streams.written]
        exact .inr {streams with together := streams.together.plain 200}
    have writes : w.call t (.write b) = writeBody t (if w.headerWritten then w else Response.writeHeader t w 200) b := by
      simp [Writer.call,Response.write,related.settled.1]
    rw [Client.call,write_opened p,writes]
    exact .inr (writeBody_related calm opened b)
  | flush =>
    have written : w.headerWritten := careful
    rcases related with idle | held | streams
    · cases idle.unwritten.1.symm.trans written
    · have still : w.call t .flush = w := by simp [Writer.call,flushCall,held.unsent]
      rw [still,Client.call,Client.flush,writeHeader_late (by simp [held.sent])]
      exact .inr (.inl held)
    have flushes : w.call t .flush = {w with log := w.log ++ [.flushed]} := by
      simp [Writer.call,flushCall,streams.sent,streams.going]
    rw [flushes]
    refine .inr (.inr {streams with together := ?_})
    rw [received_append]
    exact streams.together.late 200 200

theorem resolveRedaction_settled (settled : w.redactPending = false) : resolveRedaction t w = w := by
  unfold resolveRedaction
  split
  · rfl
  · rw [if_neg (by simp [settled])]

theorem flush_sent (sent : w.flushed) : flush w = w := by
  rw [flush,if_pos sent]

theorem received_again (together : Together (received l) p) (status : Nat) (header : Header) :
    Together (received (l ++ [.sent status header])) p := by
  rw [received_append]
  have late : {received l with header := header}.writeHeader status = {received l with header := header} :=
    writeHeader_late (c := {received l with header := header}) (together.sent ▸ together.settled) status
  change Together ({received l with header := header}.writeHeader status) p
  rw [late]
  exact {together with}

theorem finish_idle (calm : Lenient t) (idle : Idle t w p) (quiet : Quiet w v) :
    Together (received (flush (Response.writeHeader t (flush v) 200)).log) (p.writeHeader 200) := by
  have fresh := idle.fresh
  have silent : received v.log = Client.new fun _ => [] := by rw [quiet.received,fresh]; rfl
  obtain ⟨i,d,n,q,c,l,rfl⟩ := quiet.shape
  have left : flush {w with inspected := i,bodyDecided := d,uninspectedNoted := n,plain := q,plainComplete := c,log := l} =
      {w with inspected := i,bodyDecided := d,uninspectedNoted := n,plain := q,plainComplete := c,flushed := true,status := 200,
              log := l ++ [.sent 200 w.header]} := by
    rw [fresh]
    rfl
  generalize Response.flush _ = v at left ⊢
  subst left
  have together : Together (received (l ++ [.sent 200 w.header])) (p.writeHeader 200) := by
    rw [received_sent silent ok_final,writeHeader_final idle.unsent ok_final]
    exact ⟨by simp [idle.header],rfl,idle.empty.symm⟩
  generalize sent : Writer.mk _ _ _ _ _ _ _ _ _ _ _ _ _ _ _ _ _ _ _ _ _ = v
  obtain ⟨unwritten,going⟩ := idle.unwritten
  obtain ⟨_,_,blocked,_,flushed,_,_,_,log⟩ := opened_fields t v 200
  have open' : v.blocked = false := by rw [← sent]; exact going
  obtain ⟨w',asked,same⟩ := processHeaders_calm calm (blocked.trans open')
  have opens : Response.writeHeader t v 200 = processHeaders t (opened t v 200) := by
    rw [Response.writeHeader,open',← sent,unwritten]
    rfl
  have reached : Together (received w'.log) (p.writeHeader 200) := by
    rw [asked.received,log,← sent]
    exact together
  rw [opens,same]
  split
  · rw [flush_sent rfl]; exact received_again reached _ _
  · obtain ⟨i,d,n,q,c,l,rfl⟩ := asked.shape
    rwa [flush_sent (by exact flushed.trans (by rw [← sent]))]

theorem finish_related (calm : Lenient t) (related : Related t w p) : (received (finish t w).log).result = p.result := by
  have quiet := quiet_decideBody calm w
  obtain ⟨going,settled⟩ := related.settled
  have still : (decideBody t w).blocked = false ∧ (decideBody t w).redactPending = false ∧ (decideBody t w).headerWritten = w.headerWritten := by
    obtain ⟨i,d,n,q,c,l,same⟩ := quiet.shape
    rw [same]
    exact ⟨going,settled,rfl⟩
  have ends : finish t w = if (flush (decideBody t w)).headerWritten then flush (decideBody t w)
      else flush (Response.writeHeader t (flush (decideBody t w)) 200) := by
    simp only [finish,going,still.1,resolveRedaction_settled still.2.1,Bool.false_eq_true,if_false]
  rcases related with idle | held | streams
  · have unwritten : (flush (decideBody t w)).headerWritten = false := by
      have first := still.2.2.trans idle.unwritten.1
      unfold Response.flush
      split
      · exact first
      · split
        · exact first
        · dsimp only; split <;> exact first
    rw [ends,if_neg (by simp [unwritten])]
    exact (finish_idle calm idle quiet).result.trans (finish_result p)
  · have sent := (held.quiet quiet).flush
    rw [ends,if_pos sent.written]
    exact sent.together.result
  · have going := streams.quiet quiet
    rw [ends,flush_sent going.sent,if_pos going.written]
    exact going.together.result

def wafSimulation (calm : ∀ given, (t.engine given).blocked = false) : Simulation (wafWrapper t) Writer.Careful where
  Related := fun _ => Related t
  starts := fun _ => .inl ⟨rfl,rfl,rfl,rfl⟩
  calls := call_related calm
  ends := fun related _ _ _ => finish_related calm related
  again := fun _ _ more => Bool.noConfusion more

end Gateon.Waf.Response
