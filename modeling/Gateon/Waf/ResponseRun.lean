import Gateon.Waf.Inherit
import Gateon.Waf.Response

namespace Gateon.Waf.Response
open Go Transition List Option Function

section
variable {t : Inspection F}

section
variable (t : Inspection F) (w : Writer) (o : Origin)

def Streaming : Prop :=
  w.skipBody ∧ inspectable t.tables o.header = false ∨
    w.skipBody = false ∧ w.pastCeiling ∧
      (coding t.tables o.header = (.identity,true) → responseBufferLimit t.cfg ≤ (fed w.log).length)

def Over : Prop := Shut t w o ∨ Passing t w o ∧ Streaming t w o

end

theorem Holding.quiet (holding : Holding t w o held seen) : ∀ x ∈ w.log, x.leaves = false :=
  fun x mem => (holding.calm x mem).1

theorem decideBody_holding (blocking : Blocking t) (holding : Holding t w o' held seen) (origin : o = {o' with body := body})
    (all : streamed w → seen = body) :
    Shut t (decideBody t w) o ∨
      ∃ more, Kept {w with inspected := w.inspected || unread w,bodyDecided := true} (decideBody t w) more ∧
        (∃ d, .asked .ended d ∈ more) ∧ (unread w = false → fed more = []) ∧
        (streamed w = false → Read t o.header held (fed more) ∨ counted (decideBody t w).log) := by
  obtain ⟨more,unfed,stopped | ⟨kept,ended,grasped⟩⟩ :=
    decideBody_spec blocking holding.unsent holding.going holding.undecided holding.noted
  · left
    subst origin
    apply stopped.shut (o := {o' with body := body}) holding.started holding.unbroken holding.quiet
    intro _ identity
    have live := (coding_streamed holding.enc).mpr identity
    have done : unread w = false := by simp [unread,live]
    have same : fed w.log ++ fed more = body := by rw [holding.fed,if_pos live,unfed done,append_nil,all live]
    exact same ▸ prefix_refl _
  · right
    subst origin
    refine ⟨more,kept,ended,unfed,?_⟩
    intro held'
    have waiting : unread w := by simp [unread,holding.buf,holding.uninspected,held']
    rcases grasped held holding.buf waiting with count | empty | ⟨decodable,ending,read,sound⟩
    · exact .inr count
    · exact .inl (.inl empty)
    · refine .inl (.inr (.inr ?_))
      rw [← holding.enc]
      exact ⟨decodable,ending,read,sound⟩

theorem flush_noted (unsent : w.flushed = false) (unredacted : w.redacted = none) (buf : w.buf = some held) (status : w.status ≠ 0) :
    Noted w → Noted (flush w) := by
  rw [flush_held unsent unredacted buf status]
  exact (·.grown rfl rfl)

theorem finish_holding (blocking : Blocking t) (holding : Holding t w o o.body o.body) :
    Shut t (finish t w) o ∨ Passing t (finish t w) o := by
  have body : finish t w = if (decideBody t w).blocked then decideBody t w else
      let v := resolveRedaction t (decideBody t w)
      if v.blocked then v else if (flush v).headerWritten then flush v else flush (writeHeader t (flush v) 200) := by
    simp only [finish,holding.going]
    rfl
  rcases decideBody_holding blocking holding (o := o) rfl fun _ => rfl with shut | ⟨more,kept,ended,unfed,known⟩
  · left
    rw [body,if_pos shut.blocked]
    exact shut
  right
  obtain ⟨going,settled,unsent,unredacted,buf,status⟩ := holding.decided kept
  have written : (decideBody t w).headerWritten := (congrArg Writer.headerWritten kept.frame :).trans holding.written
  have same : finish t w = flush (decideBody t w) := by
    have idle : resolveRedaction t (decideBody t w) = decideBody t w := by simp [resolveRedaction,buf,settled]
    have still : (flush (decideBody t w)).headerWritten := by
      rw [flush_held unsent unredacted buf status]
      exact written
    rw [body]
    simp only [going,idle,still]
    rfl
  rw [same]
  have noted := flush_noted unsent unredacted buf status (kept.noted holding.noted)
  refine holding.passes kept ended unfed (append_nil _).symm rfl nofun noted ?_
    (fun _ => rfl) ?_
  · simp [arrived]
  intro held
  rcases known held with read | count
  · exact .inl read
  · right
    rw [flush_held unsent unredacted buf status,counted_append,count]
    rfl

theorem forward_silent (b : GoString) : Silent [.wrote b] := forall_mem_singleton.mpr ⟨rfl,rfl⟩

theorem note_silent (w : Writer) (reason : Reason) :
    ∃ more, (noteUninspectable w reason).log = w.log ++ more ∧ Silent more ∧ arrived more = [] := by
  unfold noteUninspectable
  split
  · exact ⟨[],(append_nil _).symm,nofun,rfl⟩
  · exact ⟨[.counted reason],rfl,forall_mem_singleton.mpr ⟨rfl,rfl⟩,rfl⟩

theorem Silent.append (first : Silent a) (second : Silent b) : Silent (a ++ b) := forall_mem_append.mpr ⟨first,second⟩

theorem forward_noted (noted : Noted w) (b : GoString) : Noted (forward w b) := noted.grown rfl rfl

theorem ceilingPassed_refused (blocked : w.blocked) : ceilingPassed w b inspected = w := by
  simp [ceilingPassed,blocked]

theorem ceilingPassed_going (going : w.blocked = false) (settled : w.redactPending = false) :
    ceilingPassed w b inspected = forward (if inspected then {flush w with pastCeiling := true}
      else noteUninspectable {flush w with pastCeiling := true} .ceilingReached) b := by
  simp [ceilingPassed,going,settled]

theorem passCeiling_holding (blocking : Blocking t) (holding : Holding t w o held seen) (long : w.bufLimit < held.length + b.length)
    (all : streamed w → seen = held ++ b) : Over t (passCeiling t w b (streamed w)) {o with body := held ++ b} := by
  have body : passCeiling t w b (streamed w) = ceilingPassed (decideBody t w) b (streamed w) := rfl
  rw [body]
  rcases decideBody_holding blocking holding rfl all with shut | ⟨more,kept,ended,unfed,known⟩
  · left
    rw [ceilingPassed_refused shut.blocked]
    exact shut
  right
  obtain ⟨going,settled,unsent,unredacted,buf,status⟩ := holding.decided kept
  have limit : w.bufLimit = responseBufferLimit t.cfg := holding.limit
  have noted : Noted {flush (decideBody t w) with pastCeiling := true} :=
    flush_noted unsent unredacted buf status (kept.noted holding.noted)
  rw [ceilingPassed_going going settled]
  generalize passed : forward (if streamed w then _ else _) b = u
  obtain ⟨extra,log,frame,silent,nothing,noted',count⟩ : ∃ extra, u.log = (flush (decideBody t w)).log ++ extra ∧
      u.frame = {flush (decideBody t w) with pastCeiling := true}.frame ∧ Silent extra ∧ arrived extra = b ∧ Noted u ∧
      (streamed w = false → counted u.log) := by
    cases live : streamed w with
    | true =>
      rw [live,if_pos rfl] at passed
      subst passed
      exact ⟨_,rfl,rfl,forward_silent b,append_nil b,forward_noted noted b,nofun⟩
    | false =>
      rw [live,if_neg Bool.false_ne_true] at passed
      subst passed
      obtain ⟨note,added,silent,nothing⟩ := note_silent {flush (decideBody t w) with pastCeiling := true} .ceilingReached
      obtain ⟨_,kept',_⟩ := note_kept {flush (decideBody t w) with pastCeiling := true} .ceilingReached
      refine ⟨note ++ [.wrote b],?_,kept'.frame,silent.append (forward_silent b),?_,forward_noted (kept'.noted noted) b,?_⟩
      · rw [forward,added,append_assoc]
      · rw [arrived_append,nothing]; exact append_nil b
      · intro _
        rw [forward,counted_append,note_counted noted]
        rfl
  have beyond : u.pastCeiling := (congrArg Writer.pastCeiling frame :)
  have passing : Passing t u {o with body := held ++ b} := by
    refine holding.passes kept ended unfed log ?_ silent noted' ?_ all ?_
    · rw [beyond]; exact frame
    · rw [nothing]
    · exact fun held => .inr (count held)
  refine ⟨passing,.inr ⟨?_,beyond,?_⟩⟩
  · rw [flush_held unsent unredacted buf status] at frame
    exact ((congrArg Writer.skipBody frame :).trans (congrArg Writer.skipBody kept.frame :)).trans holding.body
  intro identity
  obtain ⟨_,most⟩ := passing.fed holding.inspects identity
  rw [length_append] at most
  omega

theorem hold_holding (blocking : Blocking t) (holding : Holding t w o held seen) (all : streamed w → seen = held ++ b) :
    Holding t (hold t w b (streamed w)) o (held ++ b) (held ++ b) ∨ Over t (hold t w b (streamed w)) {o with body := held ++ b} := by
  by_cases fits : held.length + b.length ≤ w.bufLimit
  · left
    have kept : hold t w b (streamed w) = {w with buf := some (held ++ b)} := by
      simp [hold,holding.buf,holding.unsent,fits]
    rw [kept]
    refine {holding with buf := rfl,fed := ?_}
    rw [show streamed {w with buf := some (held ++ b)} = streamed w from rfl,holding.fed]
    split
    · rename_i live; exact all live
    · rfl
  · right
    have passed : hold t w b (streamed w) = passCeiling t w b (streamed w) := by
      simp [hold,holding.buf,holding.unsent,fits]
    rw [passed]
    exact passCeiling_holding blocking holding (Nat.lt_of_not_le fits) all

theorem writeBody_holding (blocking : Blocking t) (holding : Holding t w o o.body o.body) :
    Holding t (writeBody t w b) o (o.body ++ b) (o.body ++ b) ∨ Over t (writeBody t w b) {o with body := o.body ++ b} := by
  cases live : streamed w with
  | true =>
    have body : writeBody t w b = if (act t (told t w (.body b)) (answer t w (.body b))).blocked
        then act t (told t w (.body b)) (answer t w (.body b))
        else hold t (act t (told t w (.body b)) (answer t w (.body b))) b true := by
      simp [writeBody,holding.going,holding.body,holding.within,live]
    rw [body]
    rcases asked_act blocking holding.unsent (.body b) (v := told t w (.body b)) rfl rfl rfl with ⟨kept,same⟩ | stopped
    · rw [same] at kept ⊢
      rw [if_neg (by simp [told,holding.going])]
      have next : Holding t (told t w (.body b)) o o.body (o.body ++ b) := by
        obtain ⟨d,asked⟩ := holding.asked
        refine {holding with calm := ?_,asked := ⟨d,mem_append_left _ asked⟩,fed := ?_,noted := holding.noted.grown rfl rfl}
        · rw [kept.log]; exact holding.calm.append kept.calm
        · rw [kept.log,fed_append,holding.fed,if_pos live,if_pos (show streamed (told t w (.body b)) from live)]
          simp [fed,Trace.fed]
      have held := hold_holding (b := b) blocking next fun _ => rfl
      rw [show streamed (told t w (.body b)) from live] at held
      exact held
    · rw [if_pos stopped.blocked]
      right; left
      apply stopped.shut (o := {o with body := o.body ++ b}) holding.started holding.unbroken holding.quiet
      intro _ _
      rw [holding.fed,if_pos live]
      simp [fed,Trace.fed]
  | false =>
    have body : writeBody t w b = hold t w b (streamed w) := by
      simp [writeBody,holding.going,holding.body,holding.within,live]
    rw [body]
    apply hold_holding blocking holding
    intro live'
    cases live.symm.trans live'

theorem writeBody_passing (passing : Passing t w o) (streaming : Streaming t w o) :
    Passing t (writeBody t w b) {o with body := o.body ++ b} ∧ Streaming t (writeBody t w b) {o with body := o.body ++ b} := by
  rcases streaming with ⟨skips,hidden⟩ | ⟨reads,past,full⟩
  · have body : writeBody t w b = forward w b := by simp [writeBody,passing.going,skips]
    rw [body]
    refine ⟨?_,.inl ⟨skips,hidden⟩⟩
    refine passing.later rfl rfl (forward_silent b) (forward_noted passing.noted b) ?_ ?_
    · simp [arrived,Trace.bytes]
    · intro inspects; cases hidden.symm.trans inspects
  have body : writeBody t w b = forward (noteUninspectable w .ceilingReached) b := by
    simp [writeBody,passing.going,reads,past]
  rw [body]
  obtain ⟨note,log,silent,nothing⟩ := note_silent w .ceilingReached
  obtain ⟨_,kept,_⟩ := note_kept w .ceilingReached
  have log' : (forward (noteUninspectable w .ceilingReached) b).log = w.log ++ (note ++ [.wrote b]) := by
    rw [forward,log,append_assoc]
  have silent' := silent.append (forward_silent b)
  have next : Passing t (forward (noteUninspectable w .ceilingReached) b) {o with body := o.body ++ b} := by
    refine passing.later log' ?_ silent' (forward_noted (kept.noted passing.noted) b) ?_ ?_
    · have same : (noteUninspectable w .ceilingReached).frame = w.frame := kept.frame
      exact same.trans (congrArg (fun h => {w.frame with header := h}) (congrArg Writer.header same :).symm)
    · rw [arrived_append,nothing]; simp [arrived,Trace.bytes]
    intro _
    refine .inr ⟨?_,full⟩
    rw [forward,counted_append,note_counted passing.noted]
    rfl
  refine ⟨next,.inr ⟨(congrArg Writer.skipBody kept.frame :).trans reads,(congrArg Writer.pastCeiling kept.frame :).trans past,?_⟩⟩
  intro identity
  rw [log',fed_append,silent'.fed,append_nil]
  exact full identity

def headed (t : Inspection F) (header : Header) (status : Nat) : Writer := {newWriter t header with
  headerWritten := true,status := status
  respEnc := (decodableEncoding t.tables (Header.get header (lit "Content-Encoding"))).1
  encDecodable := (decodableEncoding t.tables (Header.get header (lit "Content-Encoding"))).2}

theorem opened_inspectable (blocking : Blocking t) (header : Header) (status : Nat) (inspects : inspectable t.tables header) :
    opened t (newWriter t header) status = {headed t header status with buf := some []} := by
  have positive := limit_positive blocking
  unfold inspectable at inspects
  simp [opened,newWriter,headed,inspects,positive]

theorem opened_hidden (header : Header) (status : Nat) (hidden : inspectable t.tables header = false) :
    opened t (newWriter t header) status = {headed t header status with skipBody := true,bufLimit := 0,inspected := true} := by
  unfold inspectable at hidden
  simp [opened,newWriter,headed,hidden]

theorem processHeaders_stopped (blocking : Blocking t) (unsent : v.flushed = false)
    (blocks : (answer t v (.headers v.status v.header)).blocked) :
    Stopped v (processHeaders t v) [.asked (.headers v.status v.header) (answer t v (.headers v.status v.header))] := by
  have body : processHeaders t v = block (told t v (.headers v.status v.header)) (answer t v (.headers v.status v.header)) := by
    simp only [processHeaders,blocks,blocking.enforcing]
    rfl
  rw [body]
  exact block_stopped unsent rfl rfl (by simp [Trace.leaves]) mem_cons_self blocks

theorem processHeaders_passed (passes : (answer t v (.headers v.status v.header)).blocked = false) :
    processHeaders t v =
      let u := if v.skipBody then decideBody t (told t v (.headers v.status v.header)) else told t v (.headers v.status v.header)
      if u.blocked then u else if u.bufLimit = 0 then {commitHeader u with flushed := true} else u := by
  simp only [processHeaders,passes,Bool.false_and]
  rfl

theorem processHeaders_hidden (blocking : Blocking t) (going : v.blocked = false) (unsent : v.flushed = false)
    (undecided : v.bodyDecided = false) (noted : Noted v) (skips : v.skipBody) (inspected : v.inspected)
    (limit : v.bufLimit = 0) (final : v.status ≠ 0) (passes : (answer t v (.headers v.status v.header)).blocked = false) :
    (∃ more, Stopped (told t v (.headers v.status v.header)) (processHeaders t v) more) ∨
    ∃ more, (∃ d, .asked .ended d ∈ more) ∧ Calm more ∧ Noted (processHeaders t v) ∧
      (processHeaders t v).log = (told t v (.headers v.status v.header)).log ++ more ++ [.sent v.status v.header] ∧
      (processHeaders t v).frame = {v with bodyDecided := true,flushed := true}.frame := by
  have done : unread (told t v (.headers v.status v.header)) = false := by simp [unread,told,inspected]
  have kept := told_kept v (.headers v.status v.header) passes
  obtain ⟨more,_,stopped | ⟨phase,ended,_⟩⟩ := decideBody_spec (w := told t v (.headers v.status v.header)) blocking unsent going
    undecided (kept.noted noted)
  · left
    have body : processHeaders t v = decideBody t (told t v (.headers v.status v.header)) := by
      rw [processHeaders_passed passes]
      simp only [skips,if_true,stopped.blocked]
    rw [body]
    exact ⟨more,stopped⟩
  right
  rw [done,Bool.or_false] at phase
  have body := processHeaders_passed passes
  simp only [skips,if_true] at body
  generalize decideBody t (told t v (.headers v.status v.header)) = u at phase body
  obtain ⟨going',limit',status,header⟩ : u.blocked = false ∧ u.bufLimit = 0 ∧ u.status = v.status ∧ u.header = v.header := by
    obtain ⟨n,p,c,l,rfl⟩ := same_frame phase.frame
    exact ⟨going,limit,rfl,rfl⟩
  have committed : commitHeader u = {u with log := u.log ++ [.sent v.status v.header]} := by
    simp only [commitHeader,status,header,if_neg final]
  simp only [going',limit',if_neg Bool.false_ne_true,if_true] at body
  rw [body,committed]
  refine ⟨more,ended,phase.calm,(phase.noted (kept.noted noted)).grown rfl rfl,?_,?_⟩
  · exact congrArg (· ++ [.sent v.status v.header]) phase.log
  · exact congrArg (fun w : Writer => {w with flushed := true}) phase.frame

theorem writeHeader_waiting (blocking : Blocking t) (waiting : Waiting t w o)
    (once : decodableEncoding t.tables (Header.get w.header (lit "Content-Encoding")) = coding t.tables w.header) (final : status ≠ 0) :
    Holding t (writeHeader t w status) (o.start status) [] [] ∧ (o.start status).body = [] ∨
      Over t (writeHeader t w status) (o.start status) := by
  obtain ⟨fresh,rfl⟩ := waiting
  generalize w.header = header at fresh once ⊢
  subst fresh
  have body : writeHeader t (newWriter t header) status = processHeaders t (opened t (newWriter t header) status) := rfl
  have start : Origin.start ⟨false,0,header,[]⟩ status = ⟨true,status,header,[]⟩ := rfl
  rw [body,start]
  generalize ready : opened t (newWriter t header) status = v
  have shape : v.status = status ∧ v.header = header ∧ v.log = [] ∧ v.blocked = false ∧ v.headerWritten ∧ v.flushed = false ∧
      v.aborted = false ∧ v.bodyDecided = false ∧ v.uninspectedNoted = false := by
    cases inspects : inspectable t.tables header with
    | true => rw [← ready,opened_inspectable blocking header status inspects]; simp [newWriter,headed]
    | false => rw [← ready,opened_hidden header status inspects]; simp [newWriter,headed]
  obtain ⟨status',header',log,going,written,unsent,unbroken,undecided,unnoted⟩ := shape
  have quiet : ∀ x ∈ v.log, x.leaves = false := by simp [log]
  have noted : Noted v := fun already => by cases unnoted.symm.trans already
  cases blocks : (answer t v (.headers v.status v.header)).blocked with
  | true =>
    right; left
    apply (processHeaders_stopped blocking unsent blocks).shut rfl unbroken quiet
    intro _ _
    simp [log,fed,Trace.fed]
  | false =>
    have asked := told_kept v (.headers v.status v.header) blocks
    have calm : Calm (told t v (.headers v.status v.header)).log := by rw [asked.log,log]; exact asked.calm
    have first : .asked (.headers status header) (answer t v (.headers v.status v.header)) ∈
        (told t v (.headers v.status v.header)).log := by
      rw [asked.log,status',header']
      exact mem_append_right _ mem_cons_self
    cases inspects : inspectable t.tables header with
    | true =>
      left
      have positive := limit_positive blocking
      rw [opened_inspectable blocking header status inspects] at ready
      have body : processHeaders t v = told t v (.headers v.status v.header) := by
        rw [processHeaders_passed blocks]
        subst ready
        simp [told,newWriter,headed]
        omega
      rw [body]
      have enc : (v.respEnc,v.encDecodable) = coding t.tables header := by rw [← ready]; exact once
      refine ⟨⟨header',status',final,rfl,going,written,unsent,unbroken,undecided,?_,?_,?_,?_,?_,?_,?_,enc,inspects,calm,⟨_,first⟩,?_,
        asked.noted noted⟩,rfl⟩
      iterate 7
        · rw [← ready]; rfl
      · rw [asked.log,log]; simp [fed,Trace.fed]
    | false =>
      right
      rw [opened_hidden header status inspects] at ready
      have skips : v.skipBody := by rw [← ready]
      have inspected : v.inspected := by rw [← ready]
      have limit : v.bufLimit = 0 := by rw [← ready]
      have settled : v.redactPending = false := by rw [← ready]; rfl
      rcases processHeaders_hidden blocking going unsent undecided noted skips inspected limit (status'.trans_ne final) blocks with
        ⟨more,stopped⟩ | ⟨more,⟨d,ended⟩,calm',noted',log',frame⟩
      · left
        apply stopped.shut rfl unbroken fun x mem => (calm x mem).1
        intro inspects'
        cases inspects.symm.trans inspects'
      right
      have committed := (calm.append calm').commit (fun x mem => absurd mem not_mem_nil) v.status v.header
      rw [← log',status',header'] at committed
      generalize processHeaders t v = u at *
      obtain ⟨n,p,c,l,rfl⟩ := same_frame frame
      refine ⟨⟨rfl,going,written,rfl,unbroken,rfl,settled,?_,committed.ordered,committed.clear,committed.line,committed.body,
        ?_,?_,noted',?_,?_⟩,.inl ⟨skips,inspects⟩⟩
      · simp [unread,inspected]
      · rw [log']; exact ⟨_,mem_append_left _ (mem_append_left _ first)⟩
      · rw [log']; exact ⟨d,mem_append_left _ (mem_append_right _ ended)⟩
      · intro inspects'; cases inspects.symm.trans inspects'
      · intro inspects'; cases inspects.symm.trans inspects'

def Inv (t : Inspection F) (w : Writer) (o : Origin) (returned : Bool) : Prop :=
  returned = false ∧ Waiting t w o ∨
    returned = false ∧ Holding t w o o.body o.body ∨
    Passing t w o ∧ (returned = false → Streaming t w o) ∨
    Shut t w o

theorem Inv.sound (inv : Inv t w o returned) : Sound t ⟨w,o,returned⟩ := by
  rcases inv with ⟨rfl,waiting⟩ | ⟨rfl,holding⟩ | ⟨passing,_⟩ | shut
  · exact waiting.sound
  · exact holding.sound
  · exact passing.sound returned
  · exact shut.sound returned

theorem Over.inv : Over t w o → Inv t w o false
  | .inl shut => .inr (.inr (.inr shut))
  | .inr ⟨passing,streaming⟩ => .inr (.inr (.inl ⟨passing,fun _ => streaming⟩))

theorem Shut.later (shut : Shut t w o) (b : GoString) : Shut t w {o with body := o.body ++ b} :=
  {shut with fed := fun inspects identity => (shut.fed inspects identity).trans (prefix_append _ _)}
theorem start_started {o : Origin} (started : o.started) (status : Nat) : o.start status = o := by
  rw [Origin.start,if_pos started]
theorem edit_started {o : Origin} (started : o.started) (name : GoString) (values : List GoString) : o.edit name values = o := by
  rw [Origin.edit,if_pos started]

theorem edit_inv (inv : Inv t w o false) (careful : Careful t ⟨w,o,false⟩ (.edit name values)) :
    Inv t {w with header := update w.header (canonicalMIMEHeaderKey name) values} (o.edit name values) false := by
  rcases inv with ⟨_,waiting⟩ | ⟨_,holding⟩ | ⟨passing,streaming⟩ | shut
  · left
    refine ⟨rfl,?_,?_⟩
    · have fresh := waiting.fresh
      exact congrArg (fun v : Writer => {v with header := update w.header (canonicalMIMEHeaderKey name) values}) fresh
    · have own : o = ⟨false,0,w.header,[]⟩ := waiting.header
      rw [own]
      rfl
  · have same : update w.header (canonicalMIMEHeaderKey name) values = w.header := by
      rcases careful with unwritten | sent | idle
      · cases holding.written.symm.trans unwritten
      · cases holding.unsent.symm.trans sent
      · rw [← idle]; exact update_eq_self _ _
    right; left
    rw [edit_started holding.started,same]
    exact ⟨rfl,holding⟩
  · right; right; left
    rw [edit_started passing.started]
    refine ⟨passing.later (append_nil _).symm rfl nofun passing.noted ?_ ?_,streaming⟩
    · simp [arrived]
    · exact fun _ => .inl rfl
  · right; right; right
    rw [edit_started shut.started]
    exact {shut with}

section
variable (blocking : Blocking t) (inv : Inv t w o false)
include blocking inv

theorem writeHeader_inv (final : status ≠ 0) (careful : w.headerWritten ∨
      decodableEncoding t.tables (Header.get w.header (lit "Content-Encoding")) = coding t.tables w.header) :
    Inv t (writeHeader t w status) (o.start status) false := by
  rcases inv with ⟨_,waiting⟩ | ⟨_,holding⟩ | ⟨passing,streaming⟩ | shut
  · have once := careful.resolve_left (by simp [waiting.unwritten])
    rcases writeHeader_waiting blocking waiting once final with ⟨holding,empty⟩ | past
    · right; left
      rw [← empty] at holding
      exact ⟨rfl,holding⟩
    · exact past.inv
  · have same : writeHeader t w status = w := by simp [writeHeader,holding.written]
    rw [same,start_started holding.started]
    exact .inr (.inl ⟨rfl,holding⟩)
  · have same : writeHeader t w status = w := by simp [writeHeader,passing.written]
    rw [same,start_started passing.started]
    exact .inr (.inr (.inl ⟨passing,streaming⟩))
  · have same : writeHeader t w status = w := by simp [writeHeader,shut.blocked]
    rw [same,start_started shut.started]
    exact .inr (.inr (.inr shut))

theorem writeBody_inv (started : o.started) : Inv t (writeBody t w b) {o with body := o.body ++ b} false := by
  rcases inv with ⟨_,waiting⟩ | ⟨_,holding⟩ | ⟨passing,streaming⟩ | shut
  · have own : o = ⟨false,0,w.header,[]⟩ := waiting.header
    rw [own] at started
    cases started
  · rcases writeBody_holding (b := b) blocking holding with more | past
    · exact .inr (.inl ⟨rfl,{more with}⟩)
    · exact past.inv
  · obtain ⟨next,streaming'⟩ := writeBody_passing (b := b) passing (streaming rfl)
    exact .inr (.inr (.inl ⟨next,fun _ => streaming'⟩))
  · have same : writeBody t w b = w := by simp [writeBody,shut.blocked]
    rw [same]
    exact .inr (.inr (.inr (shut.later b)))

theorem write_inv (careful : w.headerWritten ∨
      decodableEncoding t.tables (Header.get w.header (lit "Content-Encoding")) = coding t.tables w.header) :
    Inv t (write t w b) (o.write b) false := by
  have next : write t w b = writeBody t (writeHeader t w 200) b := by
    cases blocked : w.blocked with
    | true => simp [write,writeBody,writeHeader,blocked]
    | false =>
      cases written : w.headerWritten with
      | true => simp [write,writeHeader,blocked,written]
      | false => simp [write,blocked,written]
  have begun : (o.start 200).started := by
    unfold Origin.start
    split
    · assumption
    · rfl
  rw [next]
  exact writeBody_inv blocking (writeHeader_inv blocking inv (by decide) careful) begun

end

theorem flushCall_inv (inv : Inv t w o false) : Inv t (flushCall w) o false := by
  rcases inv with ⟨_,waiting⟩ | ⟨_,holding⟩ | ⟨passing,streaming⟩ | shut
  · have same : flushCall w = w := by
      have unsent : w.flushed = false := waiting.unwritten.2
      simp [flushCall,unsent]
    rw [same]
    exact .inl ⟨rfl,waiting⟩
  · have same : flushCall w = w := by simp [flushCall,holding.unsent]
    rw [same]
    exact .inr (.inl ⟨rfl,holding⟩)
  · have flushed : flushCall w = {w with log := w.log ++ [.flushed]} := by simp [flushCall,passing.sent,passing.going]
    have silent : Silent [.flushed] := forall_mem_singleton.mpr ⟨rfl,rfl⟩
    right; right; left
    rw [flushed]
    refine ⟨passing.later rfl rfl silent (passing.noted.grown rfl rfl) ?_ fun _ => .inl rfl,?_⟩
    · simp [arrived,Trace.bytes]
    intro running
    rcases streaming running with hidden | ⟨reads,past,full⟩
    · exact .inl hidden
    refine .inr ⟨reads,past,?_⟩
    intro identity
    rw [fed_append,silent.fed,append_nil]
    exact full identity
  · have same : flushCall w = w := by simp [flushCall,shut.blocked]
    rw [same]
    exact .inr (.inr (.inr shut))

theorem finish_inv (blocking : Blocking t) (inv : Inv t w o false) (written : w.headerWritten) :
    Inv t (finish t w) (o.start 200) true := by
  rcases inv with ⟨_,waiting⟩ | ⟨_,holding⟩ | ⟨passing,_⟩ | shut
  · cases written.symm.trans waiting.unwritten.1
  · rw [start_started holding.started]
    rcases finish_holding blocking holding with shut | passing
    · exact .inr (.inr (.inr shut))
    · exact .inr (.inr (.inl ⟨passing,nofun⟩))
  · have decided : decideBody t w = w := by
      simp [decideBody,inspectHeld_read passing.read,passing.decided]
    have settled : resolveRedaction t w = w := by
      unfold resolveRedaction
      cases w.buf with
      | none => rfl
      | some held => simp [passing.settled]
    have same : finish t w = w := by
      simp [finish,passing.going,decided,settled,flush,passing.sent,passing.written]
    rw [same,start_started passing.started]
    exact .inr (.inr (.inl ⟨passing,nofun⟩))
  · have same : finish t w = w := by simp [finish,shut.blocked]
    rw [same,start_started shut.started]
    exact .inr (.inr (.inr shut))

theorem step_inv (blocking : Blocking t) {x next : Exchange} (inv : Inv t x.writer x.origin x.returned) (careful : Careful t x e)
    (ran : step t x e = some next) : Inv t next.writer next.origin next.returned := by
  obtain ⟨w,o,returned⟩ := x
  cases returned with
  | true => cases ran
  | false =>
    cases e with
    | edit name values => cases ran; exact edit_inv inv careful
    | writeHeader status =>
      cases ran
      have final := status.final
      exact writeHeader_inv blocking inv (by omega) careful
    | write b => cases ran; exact write_inv blocking inv careful
    | flush => cases ran; exact flushCall_inv inv
    | returns => cases ran; exact finish_inv blocking inv careful

theorem inspection_sound (blocking : Blocking t) (header : Header)
    (path : Reached (step t) (Careful t) (arrival t header) x) : Sound t x := by
  apply Inv.sound
  exact reached_invariant (fun x => Inv t x.writer x.origin x.returned) (.inl ⟨rfl,rfl,rfl⟩) (step_inv blocking) path

end

-- It blocks what `rule` matches, with a ceiling of four bytes.
def sampleInspection (rule : Given → Bool) : Inspection Nat where
  tables := .ascii
  readers := ⟨fun src => some (src,.whole),fun src => some (src,.whole)⟩
  engine := fun given => ⟨given.getLast?.any rule,0,false,false⟩
  redact := fun body => (body,0)
  cfg := {globalWAFConfig .ascii sampleEnv [] sampleProto .standard with
    enableResponseInspection := true,auditOnly := false,dlpAction := .block,responseBodyLimit := 4}

def secretBody : Given → Bool
  | .body b => contains b (lit "secret")
  | _ => false

def everyHeader : Given → Bool
  | .headers _ _ => true
  | _ => false

def secrets : Inspection Nat := sampleInspection secretBody

theorem inspection_sound_runs :
    (∃ x, runAllowed (step secrets) (Careful secrets) (arrival secrets fun _ => [])
        [.edit (lit "Content-Type") [lit "text/plain"],.writeHeader ⟨200,by decide⟩,.write (lit "pub"),.flush,.write (lit "lic "),
          .write (lit "page"),.returns] = some x ∧ arrived x.writer.log = lit "public page" ∧ Sound secrets x) ∧
    ∃ x, runAllowed (step secrets) (Careful secrets) (arrival secrets fun _ => []) [.write (lit "the"),.write (lit "secret"),.returns] = some x ∧
      refused x.writer.log = true ∧ Sound secrets x := by
  have blocking : Blocking secrets := ⟨rfl,rfl,rfl⟩
  constructor
  · exact shown_run (by decide) fun _ path => inspection_sound blocking _ path
  · exact shown_run (by decide) fun _ path => inspection_sound blocking _ path

-- A handler that writes nothing, a header set late, a coding on a second line.
theorem inspection_too_late :
    (∃ x, run (step (sampleInspection everyHeader)) (arrival (sampleInspection everyHeader) fun _ => []) [.returns] = some x ∧
      x.writer.aborted = true ∧ ¬ Sound (sampleInspection everyHeader) x) ∧
    (∃ x, run (step secrets) (arrival secrets fun _ => [])
        [.writeHeader ⟨200,by decide⟩,.edit (lit "X-Leak") [lit "1"],.returns] = some x ∧
      ¬ Sound secrets x) ∧
    ∃ x, run (step secrets) (arrival secrets fun _ => [])
        [.edit (lit "Content-Encoding") [lit "identity",lit "gzip"],.write (lit "a"),.returns] = some x ∧
      ¬ Sound secrets x := by
  refine ⟨?_,?_,?_⟩
  · refine shown_some (fun x => x.writer.aborted) true (by decide) fun x _ cut => ⟨cut,fun sound => ?_⟩
    cases sound.unbroken.symm.trans cut
  · refine shown_some (fun x => (refused x.writer.log,(lines x.writer.log).map fun line => line.2 (lit "X-Leak"),x.origin.header (lit "X-Leak")))
      (false,[[lit "1"]],[]) (by decide) fun x _ facts sound => ?_
    obtain ⟨clear,shown⟩ := Prod.mk.inj facts
    obtain ⟨leak,own⟩ := Prod.mk.inj shown
    obtain ⟨line,mem,value⟩ : ∃ line ∈ lines x.writer.log, line.2 (lit "X-Leak") = [lit "1"] := by
      apply List.mem_map.mp
      rw [leak]
      exact mem_cons_self
    obtain ⟨same,_⟩ := sound.origin clear line mem
    rw [same] at value
    cases own.symm.trans value
  · refine shown_some (fun x => (refused x.writer.log,counted x.writer.log,arrived x.writer.log,inspectable .ascii x.origin.header,
      coding .ascii x.origin.header)) (false,false,lit "a",true,.identity,false) (by decide) fun x _ facts sound => ?_
    simp only [Prod.mk.injEq] at facts
    obtain ⟨clear,uncounted,body,inspects,code⟩ := facts
    rcases sound.read inspects clear with read | count
    · rw [body] at read
      rcases read with empty | ⟨identity,_⟩ | ⟨decodable,_⟩
      · cases empty
      · cases identity.symm.trans code
      · cases decodable.symm.trans (congrArg Prod.snd code)
    · cases uncounted.symm.trans count

end Gateon.Waf.Response
