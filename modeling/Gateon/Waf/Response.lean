import Gateon.Waf.Config

namespace Gateon.Waf.Response
open Go
open List hiding tail

-- What a gwaf transaction is given in the response phases.
inductive Given where
  | headers (status : Nat) (header : Header)
  | body (b : GoString)
  | ended

structure Decision where
  blocked : Bool
  status : Nat
  limit : Bool
  dlp : Bool

inductive Reason where
  | undecodableEncoding
  | inflateFailed
  | ceilingReached
deriving DecidableEq

-- The engine is asked, something leaves, or the response is counted as uninspected.
inductive Trace where
  | asked (given : Given) (answer : Decision)
  | sent (status : Nat) (header : Header)
  | wrote (b : GoString)
  | flushed
  | counted (reason : Reason)

def Trace.given : Trace → Option Given
  | .asked given _ => some given
  | _ => none

-- The engine answers from all it was given so far.
structure Inspection (F : Type) where
  tables : Tables
  readers : Readers
  engine : List Given → Decision
  redact : GoString → GoString × Nat
  cfg : WAFConfig F

-- `header` is the map that Header() hands out, `log` the transaction and the client.
structure Writer where
  header : Header
  status : Nat
  blocked : Bool
  headerWritten : Bool
  flushed : Bool
  bodyDecided : Bool
  pastCeiling : Bool
  aborted : Bool
  uninspectedNoted : Bool
  buf : Option GoString
  bufLimit : Nat
  respEnc : Encoding
  encDecodable : Bool
  inspected : Bool
  skipBody : Bool
  plain : GoString
  plainComplete : Bool
  redactPending : Bool
  pendingDecision : Decision
  redacted : Option GoString
  log : List Trace

def defaultResponseBufferLimit : Nat := 1048576

def responseBufferLimit (cfg : WAFConfig F) : Nat :=
  if cfg.enableResponseInspection = false then 0
  else if 0 < cfg.responseBodyLimit then cfg.responseBodyLimit.toNat
  else defaultResponseBufferLimit

def responseBlockedBody : GoString := lit "Forbidden by Security Policy (response blocked)"

def originRepresentationHeaders : List GoString :=
  [lit "Content-Length",lit "Content-Encoding",lit "Content-Range",lit "Content-Disposition",lit "Content-Md5",
    lit "Digest",lit "Etag",lit "Last-Modified",lit "Accept-Ranges"]

def frameRefusal (h : Header) (n : Nat) : Header :=
  let h := originRepresentationHeaders.foldl Header.del h
  let h := Header.set h (lit "Content-Type") (lit "text/plain; charset=utf-8")
  let h := Header.set h (lit "X-Content-Type-Options") (lit "nosniff")
  Header.set h (lit "Content-Length") (decimal n)

def refusalStatus (d : Decision) : Nat := if d.status = 0 then 403 else d.status
section
variable (w : Writer)

def noteUninspectable (reason : Reason) : Writer :=
  if w.uninspectedNoted then w else {w with uninspectedNoted := true,log := w.log ++ [.counted reason]}

-- ResponseWriter.Write.
def forward (b : GoString) : Writer := {w with log := w.log ++ [.wrote b]}

def commitHeader : Writer :=
  let status := if w.status = 0 then 200 else w.status
  {w with status := status,log := w.log ++ [.sent status w.header]}

def block (d : Decision) : Writer :=
  let w := {w with blocked := true,buf := w.buf.map fun _ => []}
  if w.flushed then {w with aborted := true}
  else
    let header := frameRefusal w.header responseBlockedBody.length
    {w with flushed := true,header := header,log := w.log ++ [.sent (refusalStatus d) header,.wrote responseBlockedBody]}

def canRewriteBody : Bool := !w.flushed && w.buf.isSome && (w.respEnc == .identity || w.plainComplete)
def streamed : Bool := w.respEnc == .identity && w.encDecodable

def flush : Writer :=
  if w.flushed then w
  else
    match w.redacted with
    | some body =>
      let header := Header.set (Header.del w.header (lit "Content-Encoding")) (lit "Content-Length") (decimal body.length)
      {forward (commitHeader {w with header := header,flushed := true}) body with buf := w.buf.map fun _ => []}
    | none =>
      let w := commitHeader {w with flushed := true}
      match w.buf with
      | none | some [] => w
      | some (b :: held) => {forward w (b :: held) with buf := some []}

def flushCall : Writer := if w.flushed && !w.blocked then {w with log := w.log ++ [.flushed]} else w

end

section
variable (t : Inspection F)

section
variable (w : Writer)

def answer (given : Given) : Decision := t.engine (w.log.filterMap Trace.given ++ [given])
def told (given : Given) : Writer := {w with log := w.log ++ [.asked given (answer t w given)]}

def applyDecision (d : Decision) : Writer :=
  if !d.blocked || t.cfg.auditOnly then w
  else if t.cfg.dlpAction ≠ .block ∧ d.dlp ∧ canRewriteBody w then
    if t.cfg.dlpAction = .audit then w else {w with redactPending := true,pendingDecision := d}
  else block w d

-- A decision is applied where it blocks and the WAF is not audit-only.
def act (d : Decision) : Writer := if d.blocked && !t.cfg.auditOnly then applyDecision t w d else w

section
variable (inflated : Inflated)

-- inspectHeld from where the body is inflated, and its last test.
def noteCut : Writer :=
  if inflated.truncated || inflated.failed then noteUninspectable w .ceilingReached else w

def giveInflated : Writer :=
  {told t w (.body inflated.plain) with plain := inflated.plain,plainComplete := !inflated.truncated && !inflated.failed}

def inspectPlain : Writer :=
  if inflated.failed && inflated.plain == [] then noteUninspectable w .inflateFailed
  else if inflated.plain = [] then noteCut w inflated
  else
    let w := act t (giveInflated t w inflated) (answer t w (.body inflated.plain))
    if w.blocked then w else noteCut w inflated

end

def inspectHeld : Writer :=
  match w.buf with
  | none => w
  | some held =>
    if w.inspected || streamed w then w
    else if w.encDecodable then
      inspectPlain t {w with inspected := true} (inflateForInspection t.readers w.respEnc held w.bufLimit)
    else noteUninspectable {w with inspected := true} .undecodableEncoding

-- The response-body phase itself, within decideBody.
def processBody : Writer :=
  let d := answer t w .ended
  let w := {told t w .ended with bodyDecided := true}
  act t (if d.limit && !d.blocked then noteUninspectable w .ceilingReached else w) d

def decideBody : Writer :=
  let w := inspectHeld t w
  if w.blocked || w.bodyDecided then w else processBody t w

-- What WriteHeader settles before the engine is asked.
def opened (status : Nat) : Writer :=
  let enc := decodableEncoding t.tables (Header.get w.header (lit "Content-Encoding"))
  let w := {w with headerWritten := true,status := status,respEnc := enc.1,encDecodable := enc.2}
  let w := if responseBodyInspectable t.tables (Header.get w.header (lit "Content-Type")) then w
    else {w with skipBody := true,bufLimit := 0,inspected := true}
  if 0 < w.bufLimit then {w with buf := some []} else w

-- WriteHeader from where the engine is asked.
def processHeaders : Writer :=
  let d := answer t w (.headers w.status w.header)
  let w := told t w (.headers w.status w.header)
  if d.blocked && !t.cfg.auditOnly then block w d
  else
    let w := if w.skipBody then decideBody t w else w
    if w.blocked then w
    else if w.bufLimit = 0 then {commitHeader w with flushed := true}
    else w

def writeHeader (status : Nat) : Writer :=
  if w.blocked || w.headerWritten then w else processHeaders t (opened t w status)

section
variable (b : GoString) (inspected : Bool)

-- passCeiling after the body phase.
def ceilingPassed : Writer :=
  let w := if !w.blocked && w.redactPending then block w w.pendingDecision else w
  if w.blocked then w
  else
    let w := {flush w with pastCeiling := true}
    forward (if inspected then w else noteUninspectable w .ceilingReached) b

def passCeiling : Writer := ceilingPassed (decideBody t w) b inspected

-- Write from where the bytes are held back or passed on.
def hold : Writer :=
  match w.buf with
  | none => forward w b
  | some held =>
    if w.flushed then forward w b
    else if held.length + b.length ≤ w.bufLimit then {w with buf := some (held ++ b)}
    else passCeiling t w b inspected

end

def writeBody (b : GoString) : Writer :=
  if w.blocked then w
  else if w.skipBody then forward w b
  else if w.pastCeiling then forward (noteUninspectable w .ceilingReached) b
  else if streamed w then
    let d := answer t w (.body b)
    let w := act t (told t w (.body b)) d
    if w.blocked then w else hold t w b true
  else hold t w b false

def write (b : GoString) : Writer :=
  if w.blocked then w else writeBody t (if w.headerWritten then w else writeHeader t w 200) b

def resolveRedaction : Writer :=
  match w.buf with
  | none => w
  | some held =>
    if w.redactPending then
      let w := {w with redactPending := false}
      let result := t.redact (if w.respEnc = .identity then held else w.plain)
      if result.2 = 0 then block w w.pendingDecision else {w with redacted := some result.1}
    else w

def finish : Writer :=
  if w.blocked then w
  else
    let w := decideBody t w
    if w.blocked then w
    else
      let w := resolveRedaction t w
      if w.blocked then w
      else
        let w := flush w
        if w.headerWritten then w else flush (writeHeader t w 200)

end

-- inspectResponse's writer over the header map that the handler is given.
def newWriter (header : Header) : Writer where
  header := header
  status := 0
  blocked := false
  headerWritten := false
  flushed := false
  bodyDecided := false
  pastCeiling := false
  aborted := false
  uninspectedNoted := false
  buf := none
  bufLimit := responseBufferLimit t.cfg
  respEnc := .identity
  encDecodable := true
  inspected := false
  skipBody := false
  plain := []
  plainComplete := false
  redactPending := false
  pendingDecision := ⟨false,0,false,false⟩
  redacted := none
  log := []

end

-- What the log says.
def Trace.line : Trace → Option (Nat × Header)
  | .sent status header => some (status,header)
  | _ => none

def Trace.bytes : Trace → GoString
  | .wrote b => b
  | _ => []

def Trace.fed : Trace → GoString
  | .asked (.body b) _ => b
  | _ => []

def Trace.asks : Trace → Bool
  | .asked _ _ => true
  | _ => false

def Trace.blocks : Trace → Bool
  | .asked _ d => d.blocked
  | _ => false

def Trace.leaves : Trace → Bool
  | .sent _ _ | .wrote _ | .flushed => true
  | _ => false

def Trace.counts : Trace → Bool
  | .counted _ => true
  | _ => false

section
variable (log : List Trace)

def lines : List (Nat × Header) := log.filterMap Trace.line
def arrived : GoString := log.flatMap Trace.bytes
def fed : GoString := log.flatMap Trace.fed
def refused : Bool := log.any Trace.blocks
def counted : Bool := log.any Trace.counts

def Ordered : Prop := log.Pairwise fun x y => x.leaves → y.asks = false

end

section
variable (a b : List Trace)

@[simp] theorem lines_append : lines (a ++ b) = lines a ++ lines b := filterMap_append
@[simp] theorem arrived_append : arrived (a ++ b) = arrived a ++ arrived b := flatMap_append
@[simp] theorem fed_append : fed (a ++ b) = fed a ++ fed b := flatMap_append
@[simp] theorem refused_append : refused (a ++ b) = (refused a || refused b) := any_append
@[simp] theorem counted_append : counted (a ++ b) = (counted a || counted b) := any_append

end

def Calm (log : List Trace) : Prop := ∀ x ∈ log, x.leaves = false ∧ x.blocks = false

theorem Calm.append (first : Calm a) (then' : Calm b) : Calm (a ++ b) := forall_mem_append.mpr ⟨first,then'⟩

theorem quiet_lines (quiet : ∀ x ∈ log, Trace.leaves x = false) : lines log = [] := by
  apply filterMap_eq_nil_iff.mpr
  intro x mem
  have still := quiet x mem
  cases x with
  | sent => cases still
  | _ => rfl

theorem quiet_arrived (quiet : ∀ x ∈ log, Trace.leaves x = false) : arrived log = [] := by
  apply flatMap_eq_nil_iff.mpr
  intro x mem
  have still := quiet x mem
  cases x with
  | wrote => cases still
  | _ => rfl

theorem Calm.refused (calm : Calm log) : refused log = false := by
  apply List.any_eq_false.mpr
  intro x mem
  simp [(calm x mem).2]

theorem ordered_quiet (quiet : ∀ x ∈ log, Trace.leaves x = false) (rest : Ordered more) : Ordered (log ++ more) := by
  apply pairwise_append.mpr
  refine ⟨?_,rest,?_⟩
  · apply pairwise_of_forall_mem_list
    intro x mem y _ leaves
    cases (quiet x mem).symm.trans leaves
  · intro x mem y _ leaves; cases (quiet x mem).symm.trans leaves

theorem ordered_append (ordered : Ordered log) (silent : ∀ y ∈ more, Trace.asks y = false) : Ordered (log ++ more) := by
  apply pairwise_append.mpr
  refine ⟨ordered,?_,?_⟩
  · apply pairwise_of_forall_mem_list
    intro x _ y mem _
    exact silent y mem
  · intro x _ y mem _; exact silent y mem

def Writer.frame (w : Writer) : Writer :=
  {w with uninspectedNoted := false,plain := [],plainComplete := false,log := []}
def Noted (w : Writer) : Prop := w.uninspectedNoted → counted w.log

theorem Noted.grown (noted : Noted w) (log : w'.log = w.log ++ more) (same : w'.uninspectedNoted = w.uninspectedNoted) : Noted w' := by
  intro already
  rw [log,counted_append,noted (same ▸ already)]
  rfl

-- A frame fixes all of a writer but the four fields it clears.
theorem same_frame {u w : Writer} (frame : u.frame = w.frame) :
    ∃ n p c l, u = {w with uninspectedNoted := n,plain := p,plainComplete := c,log := l} :=
  ⟨_,_,_,_,congrArg
    (fun v : Writer => {v with uninspectedNoted := u.uninspectedNoted,plain := u.plain,plainComplete := u.plainComplete,log := u.log}) frame⟩

structure Kept (w w' : Writer) (more : List Trace) : Prop where
  log : w'.log = w.log ++ more
  calm : Calm more
  frame : w'.frame = w.frame
  noted : Noted w → Noted w'

structure Stopped (w w' : Writer) (more : List Trace) : Prop where
  log : ∃ given d, .asked given d ∈ more ∧ d.blocked ∧ w'.log = w.log ++ more ++
    [.sent (refusalStatus d) (frameRefusal w.header responseBlockedBody.length),.wrote responseBlockedBody]
  quiet : ∀ x ∈ more, x.leaves = false
  blocked : w'.blocked
  flushed : w'.flushed
  aborted : w'.aborted = w.aborted

theorem Kept.refl (w : Writer) : Kept w w [] := ⟨(append_nil _).symm,nofun,rfl,id⟩

theorem Kept.trans (first : Kept u v a) (second : Kept v w b) : Kept u w (a ++ b) where
  log := by rw [second.log,first.log,append_assoc]
  calm := first.calm.append second.calm
  frame := second.frame.trans first.frame
  noted := second.noted ∘ first.noted

theorem Kept.stopped (first : Kept u v a) (second : Stopped v w b) : Stopped u w (a ++ b) where
  log := by
    obtain ⟨given,d,asked,blocks,log⟩ := second.log
    have header : v.header = u.header := (congrArg Writer.header first.frame :)
    refine ⟨given,d,mem_append_right a asked,blocks,?_⟩
    rw [log,first.log,header]
    simp only [append_assoc]
  quiet := by
    intro x mem
    rcases mem_append.mp mem with early | late
    · exact (first.calm x early).1
    · exact second.quiet x late
  blocked := second.blocked
  flushed := second.flushed
  aborted := second.aborted.trans (congrArg Writer.aborted first.frame :)

theorem Stopped.of_same (stopped : Stopped v w' more) (log : v.log = w.log) (header : v.header = w.header)
    (aborted : v.aborted = w.aborted) : Stopped w w' more where
  log := by
    rw [← log,← header]
    exact stopped.log
  quiet := stopped.quiet
  blocked := stopped.blocked
  flushed := stopped.flushed
  aborted := stopped.aborted.trans aborted

theorem note_kept (w : Writer) (reason : Reason) : ∃ more, Kept w (noteUninspectable w reason) more ∧ fed more = [] := by
  by_cases done : w.uninspectedNoted
  · refine ⟨[],?_,rfl⟩
    rw [noteUninspectable,if_pos done]
    exact .refl w
  · refine ⟨[.counted reason],?_,rfl⟩
    rw [noteUninspectable,if_neg done]
    refine ⟨rfl,?_,rfl,?_⟩
    · simp [Calm,Trace.leaves,Trace.blocks]
    · simp [Noted,counted,Trace.counts]

theorem note_counted (noted : Noted w) (reason : Reason) : counted (noteUninspectable w reason).log := by
  by_cases done : w.uninspectedNoted
  · rw [noteUninspectable,if_pos done]; exact noted done
  · rw [noteUninspectable,if_neg done]; simp [counted,Trace.counts]

theorem block_stopped (unsent : w.flushed = false) (log : v.log = w.log ++ more) (frame : v.frame = w.frame)
    (quiet : ∀ x ∈ more, x.leaves = false) (asked : .asked given d ∈ more) (blocks : d.blocked) :
    Stopped w (block v d) more := by
  have held : v.flushed = false := (congrArg Writer.flushed frame :).trans unsent
  have header : v.header = w.header := (congrArg Writer.header frame :)
  have aborted : v.aborted = w.aborted := (congrArg Writer.aborted frame :)
  unfold block
  simp only [held]
  refine ⟨⟨given,d,asked,blocks,?_⟩,quiet,rfl,rfl,aborted⟩
  simp [log,header]

section
variable {t : Inspection F}

structure Blocking (t : Inspection F) : Prop where
  inspects : t.cfg.enableResponseInspection
  enforcing : t.cfg.auditOnly = false
  action : t.cfg.dlpAction = .block

theorem act_blocks (blocking : Blocking t) (w : Writer) (d : Decision) : act t w d = if d.blocked then block w d else w := by
  cases blocks : d.blocked <;> simp [act,applyDecision,blocks,blocking.enforcing,blocking.action]

theorem told_kept (w : Writer) (given : Given) (passes : (answer t w given).blocked = false) :
    Kept w (told t w given) [.asked given (answer t w given)] := by
  refine ⟨rfl,?_,rfl,(·.grown rfl rfl)⟩
  simp [Calm,Trace.leaves,Trace.blocks,passes]

theorem asked_act (blocking : Blocking t) (unsent : w.flushed = false) (given : Given)
    (log : v.log = w.log ++ [.asked given (answer t w given)]) (frame : v.frame = w.frame) (same : v.uninspectedNoted = w.uninspectedNoted) :
    Kept w (act t v (answer t w given)) [.asked given (answer t w given)] ∧ act t v (answer t w given) = v ∨
      Stopped w (act t v (answer t w given)) [.asked given (answer t w given)] := by
  rw [act_blocks blocking]
  cases blocks : (answer t w given).blocked with
  | true =>
    right
    rw [if_pos rfl]
    exact block_stopped unsent log frame (by simp [Trace.leaves]) mem_cons_self blocks
  | false =>
    left
    rw [if_neg Bool.false_ne_true]
    refine ⟨⟨log,?_,frame,(·.grown log same)⟩,rfl⟩
    simp [Calm,Trace.leaves,Trace.blocks,blocks]

-- The response is counted, or the engine was given all there is to read.
def Grasped (t : Inspection F) (w w' : Writer) (held given : GoString) : Prop :=
  counted w'.log ∨ held = [] ∨
    w.encDecodable ∧ ∃ ending, t.readers.read w.respEnc held = some (given,ending) ∧ ending ≠ .corrupt

theorem noteCut_spec (kept : Kept w v more) (noted : Noted w) (decodable : w.encDecodable)
    (same : inflateForInspection t.readers w.respEnc held limit = inflated) (all : fed more = inflated.plain) :
    ∃ more, Kept w (noteCut v inflated) more ∧ Grasped t w (noteCut v inflated) held (fed more) := by
  subst same
  unfold noteCut
  split
  · obtain ⟨note,added,_⟩ := note_kept v .ceilingReached
    exact ⟨more ++ note,kept.trans added,.inl (note_counted (kept.noted noted) _)⟩
  rename_i clean
  simp only [Bool.or_eq_true,not_or,Bool.not_eq_true] at clean
  refine ⟨more,kept,.inr ?_⟩
  by_cases empty : held = []
  · exact .inl empty
  · rw [all]; exact .inr ⟨decodable,inflate_whole clean.1 clean.2 empty⟩

theorem inspectPlain_spec (blocking : Blocking t) (unsent : w.flushed = false) (going : w.blocked = false) (noted : Noted w)
    (decodable : w.encDecodable) (same : inflateForInspection t.readers w.respEnc held limit = inflated) :
    ∃ more, Stopped w (inspectPlain t w inflated) more ∨
      Kept w (inspectPlain t w inflated) more ∧ Grasped t w (inspectPlain t w inflated) held (fed more) := by
  unfold inspectPlain
  split
  · obtain ⟨note,added,_⟩ := note_kept w .inflateFailed
    exact ⟨note,.inr ⟨added,.inl (note_counted noted _)⟩⟩
  split
  · rename_i _ nothing
    obtain ⟨more,spec⟩ := noteCut_spec (.refl w) noted decodable same (by rw [nothing]; rfl)
    exact ⟨more,.inr spec⟩
  dsimp only
  rcases asked_act blocking unsent (.body inflated.plain) (v := giveInflated t w _) rfl rfl rfl with ⟨kept,acted⟩ | stopped
  · rw [acted] at kept ⊢
    rw [if_neg (by simp [giveInflated,told,going])]
    obtain ⟨more,spec⟩ := noteCut_spec kept noted decodable same (append_nil _)
    exact ⟨more,.inr spec⟩
  · rw [if_pos stopped.blocked]; exact ⟨_,.inl stopped⟩

def unread (w : Writer) : Bool := w.buf.isSome && !w.inspected && !streamed w

theorem inspectHeld_read (read : unread w = false) : inspectHeld t w = w := by
  unfold inspectHeld
  cases held : w.buf with
  | none => rfl
  | some body =>
    have done : (w.inspected || streamed w) := by
      simpa [unread,held,← Bool.not_or] using read
    exact if_pos done

theorem inspectHeld_spec (blocking : Blocking t) (unsent : w.flushed = false) (going : w.blocked = false) (noted : Noted w)
    (buf : w.buf = some held) (waiting : unread w) : ∃ more, Stopped w (inspectHeld t w) more ∨
      Kept {w with inspected := true} (inspectHeld t w) more ∧ Grasped t w (inspectHeld t w) held (fed more) := by
  have fresh : (w.inspected || streamed w) = false := by
    simpa [unread,buf,← Bool.not_or] using waiting
  have body : inspectHeld t w = if w.encDecodable then
      inspectPlain t {w with inspected := true} (inflateForInspection t.readers w.respEnc held w.bufLimit)
    else noteUninspectable {w with inspected := true} .undecodableEncoding := by
    simp only [inspectHeld,buf,fresh]
    rfl
  rw [body]
  split
  · rename_i decodable
    obtain ⟨more,stopped | spec⟩ := inspectPlain_spec blocking (w := {w with inspected := true}) unsent going noted decodable rfl
    · exact ⟨more,.inl (stopped.of_same rfl rfl rfl)⟩
    · exact ⟨more,.inr spec⟩
  · obtain ⟨note,added,_⟩ := note_kept {w with inspected := true} .undecodableEncoding
    exact ⟨note,.inr ⟨added,.inl (note_counted (w := {w with inspected := true}) noted _)⟩⟩

theorem processBody_spec (blocking : Blocking t) (unsent : w.flushed = false) :
    ∃ more, (∃ d, .asked .ended d ∈ more) ∧ fed more = [] ∧
      (Stopped w (processBody t w) more ∨ Kept {w with bodyDecided := true} (processBody t w) more) := by
  unfold processBody
  cases blocks : (answer t w .ended).blocked with
  | true =>
    refine ⟨[.asked .ended (answer t w .ended)],⟨_,mem_cons_self⟩,rfl,.inl ?_⟩
    rw [act_blocks blocking,blocks,if_pos rfl,if_neg (by simp)]
    have stopped := block_stopped (w := {w with bodyDecided := true}) (v := {told t w .ended with bodyDecided := true}) unsent rfl rfl
      (by simp [Trace.leaves]) mem_cons_self blocks
    exact stopped.of_same rfl rfl rfl
  | false =>
    rw [act_blocks blocking,blocks,if_neg Bool.false_ne_true]
    have kept := told_kept (t := t) {w with bodyDecided := true} .ended blocks
    split
    · obtain ⟨note,added,none'⟩ := note_kept {told t w .ended with bodyDecided := true} .ceilingReached
      refine ⟨_,⟨_,mem_append_left note mem_cons_self⟩,?_,.inr (kept.trans added)⟩
      rw [fed_append,none']
      rfl
    · exact ⟨_,⟨_,mem_cons_self⟩,rfl,.inr kept⟩

theorem decideBody_spec (blocking : Blocking t) (unsent : w.flushed = false) (going : w.blocked = false)
    (undecided : w.bodyDecided = false) (noted : Noted w) :
    ∃ more, (unread w = false → fed more = []) ∧
      (Stopped w (decideBody t w) more ∨
        Kept {w with inspected := w.inspected || unread w,bodyDecided := true} (decideBody t w) more ∧
          (∃ d, .asked .ended d ∈ more) ∧
          ∀ held, w.buf = some held → unread w → Grasped t w (decideBody t w) held (fed more)) := by
  unfold decideBody
  cases waiting : unread w with
  | false =>
    rw [inspectHeld_read waiting,if_neg (by simp [going,undecided])]
    obtain ⟨more,asked,unfed,outcome⟩ := processBody_spec (w := w) blocking unsent
    refine ⟨more,fun _ => unfed,?_⟩
    rcases outcome with stopped | kept
    · exact .inl stopped
    · rw [Bool.or_false]; exact .inr ⟨kept,asked,nofun⟩
  | true =>
    obtain ⟨held,buf⟩ : ∃ held, w.buf = some held := by
      apply Option.isSome_iff_exists.mp
      simp only [unread,Bool.and_eq_true] at waiting
      exact waiting.1.1
    obtain ⟨more,stopped | ⟨kept,grasped⟩⟩ := inspectHeld_spec blocking unsent going noted buf waiting
    · refine ⟨more,nofun,.inl ?_⟩
      rw [if_pos (by simp [stopped.blocked])]
      exact stopped
    have still : (inspectHeld t w).blocked = false := (congrArg Writer.blocked kept.frame :).trans going
    have open' : (inspectHeld t w).bodyDecided = false := (congrArg Writer.bodyDecided kept.frame :).trans undecided
    have unsent' : (inspectHeld t w).flushed = false := (congrArg Writer.flushed kept.frame :).trans unsent
    rw [if_neg (by simp [still,open'])]
    obtain ⟨later,⟨d,asked⟩,unfed,outcome⟩ := processBody_spec blocking unsent'
    refine ⟨more ++ later,nofun,?_⟩
    rcases outcome with stopped | kept'
    · left; exact (kept.stopped stopped).of_same rfl rfl rfl
    right
    rw [Bool.or_true]
    refine ⟨⟨?_,kept.calm.append kept'.calm,?_,?_⟩,⟨d,mem_append_right more asked⟩,?_⟩
    · rw [kept'.log,← append_assoc]; exact congrArg (· ++ later) kept.log
    · have first := congrArg (fun v : Writer => {v with bodyDecided := true}) kept.frame
      exact kept'.frame.trans first
    · exact kept'.noted ∘ kept.noted
    intro body buf' _
    cases Option.some.inj (buf.symm.trans buf')
    rw [fed_append,unfed,append_nil]
    rcases grasped with early | whole
    · left
      rw [kept'.log,counted_append]
      simp [early]
    · exact .inr whole

end

-- Status and header map are settled by WriteHeader or the first Write.
structure Origin where
  started : Bool
  status : Nat
  header : Header
  body : GoString

def Origin.edit (o : Origin) (name : GoString) (values : List GoString) : Origin :=
  if o.started then o else {o with header := Function.update o.header (canonicalMIMEHeaderKey name) values}
def Origin.start (o : Origin) (status : Nat) : Origin := if o.started then o else {o with started := true,status := status}
def Origin.write (o : Origin) (b : GoString) : Origin := {o.start 200 with body := (o.start 200).body ++ b}

structure FinalStatus where
  code : Nat
  final : 200 ≤ code

inductive Event where
  | edit (name : GoString) (values : List GoString)
  | writeHeader (status : FinalStatus)
  | write (b : GoString)
  | flush
  | returns

structure Exchange where
  writer : Writer
  origin : Origin
  returned : Bool

def coding (u : Tables) (h : Header) : Encoding × Bool :=
  decodableEncoding u (join (Header.values h (lit "Content-Encoding")) (lit ", "))
def inspectable (u : Tables) (h : Header) : Bool := responseBodyInspectable u (Header.get h (lit "Content-Type"))

def Reframed (h : Header) : Prop :=
  (∀ name ∈ originRepresentationHeaders, name ≠ lit "Content-Length" → Header.values h name = []) ∧
    Header.values h (lit "Content-Length") = [decimal responseBlockedBody.length] ∧
    Header.values h (lit "Content-Type") = [lit "text/plain; charset=utf-8"]

def Refusal (log : List Trace) : Prop :=
  ∃ given d h, .asked given d ∈ log ∧ d.blocked ∧ lines log = [(refusalStatus d,h)] ∧ Reframed h ∧
    arrived log = responseBlockedBody

section
variable (t : Inspection F)

def step (x : Exchange) (e : Event) : Option Exchange :=
  if x.returned then none
  else some <| match e with
    | .edit name values =>
      {x with writer := {x.writer with header := Function.update x.writer.header (canonicalMIMEHeaderKey name) values},
              origin := x.origin.edit name values}
    | .writeHeader status => {x with writer := writeHeader t x.writer status.code,origin := x.origin.start status.code}
    | .write b => {x with writer := write t x.writer b,origin := x.origin.write b}
    | .flush => {x with writer := flushCall x.writer}
    | .returns => ⟨finish t x.writer,x.origin.start 200,true⟩

def arrival (header : Header) : Exchange := ⟨newWriter t header,⟨false,0,header,[]⟩,false⟩

def Read (h : Header) (sent given : GoString) : Prop :=
  sent = [] ∨ coding t.tables h = (.identity,true) ∧ sent <+: given ∨
    (coding t.tables h).2 ∧ ∃ ending, t.readers.read (coding t.tables h).1 sent = some (given,ending) ∧ ending ≠ .corrupt

structure Sound (x : Exchange) : Prop where
  unbroken : x.writer.aborted = false
  ordered : Ordered x.writer.log
  refusal : refused x.writer.log → Refusal x.writer.log
  origin : refused x.writer.log = false → ∀ line ∈ lines x.writer.log, line = (x.origin.status,x.origin.header) ∧
    (∃ d, .asked (.headers line.1 line.2) d ∈ x.writer.log) ∧ ∃ d, .asked .ended d ∈ x.writer.log
  complete : x.returned → refused x.writer.log = false →
    lines x.writer.log = [(x.origin.status,x.origin.header)] ∧ arrived x.writer.log = x.origin.body
  fed : inspectable t.tables x.origin.header → coding t.tables x.origin.header = (.identity,true) →
    fed x.writer.log <+: x.origin.body ∧ (refused x.writer.log = false →
      min x.origin.body.length (responseBufferLimit t.cfg) ≤ (fed x.writer.log).length)
  read : inspectable t.tables x.origin.header → refused x.writer.log = false →
    Read t x.origin.header (arrived x.writer.log) (Response.fed x.writer.log) ∨ counted x.writer.log

-- No edit before the headers have left, no early return, one Content-Encoding line.
def Careful (x : Exchange) : Event → Prop
  | .edit name values => x.writer.headerWritten = false ∨ x.writer.flushed ∨
      Header.values x.writer.header name = values
  | .writeHeader _ | .write _ => x.writer.headerWritten ∨
      decodableEncoding t.tables (Header.get x.writer.header (lit "Content-Encoding")) = coding t.tables x.writer.header
  | .flush => True
  | .returns => x.writer.headerWritten

instance : ∀ x e, Decidable (Careful t x e) := by
  intros
  unfold Careful
  split <;> infer_instance

end

theorem limit_positive {t : Inspection F} (blocking : Blocking t) : 0 < responseBufferLimit t.cfg := by
  unfold responseBufferLimit
  rw [blocking.inspects,if_neg Bool.noConfusion]
  split
  · omega
  · decide

theorem frameRefusal_reframed (h : Header) : Reframed (frameRefusal h responseBlockedBody.length) := by
  have apart : ∀ name ∈ originRepresentationHeaders, name ≠ lit "Content-Length" →
      canonicalMIMEHeaderKey name ≠ canonicalMIMEHeaderKey (lit "Content-Length") ∧
      canonicalMIMEHeaderKey name ≠ canonicalMIMEHeaderKey (lit "X-Content-Type-Options") ∧
      canonicalMIMEHeaderKey name ≠ canonicalMIMEHeaderKey (lit "Content-Type") := by decide
  refine ⟨?_,?_,?_⟩
  · intro name mem other
    obtain ⟨length,options,kind⟩ := apart name mem other
    simp only [Header.values,frameRefusal,set_apply,if_neg length,if_neg options,if_neg kind,dels_apply]
    exact if_pos (mem_map_of_mem mem)
  · simp only [Header.values,frameRefusal,set_apply,if_pos]
  · have length : canonicalMIMEHeaderKey (lit "Content-Type") ≠ canonicalMIMEHeaderKey (lit "Content-Length") := by decide
    have options : canonicalMIMEHeaderKey (lit "Content-Type") ≠ canonicalMIMEHeaderKey (lit "X-Content-Type-Options") := by decide
    simp only [Header.values,frameRefusal,set_apply,if_neg length,if_neg options,if_pos]

variable {t : Inspection F}

structure Waiting (t : Inspection F) (w : Writer) (o : Origin) : Prop where
  fresh : w = newWriter t w.header
  header : o = ⟨false,0,w.header,[]⟩

-- Of the body `held` is held back, and the engine was given `seen`.
structure Holding (t : Inspection F) (w : Writer) (o : Origin) (held seen : GoString) : Prop where
  header : w.header = o.header
  status : w.status = o.status
  final : o.status ≠ 0
  started : o.started
  going : w.blocked = false
  written : w.headerWritten
  unsent : w.flushed = false
  unbroken : w.aborted = false
  undecided : w.bodyDecided = false
  within : w.pastCeiling = false
  body : w.skipBody = false
  uninspected : w.inspected = false
  settled : w.redactPending = false
  unredacted : w.redacted = none
  buf : w.buf = some held
  limit : w.bufLimit = responseBufferLimit t.cfg
  enc : (w.respEnc,w.encDecodable) = coding t.tables o.header
  inspects : inspectable t.tables o.header
  calm : Calm w.log
  asked : ∃ d, .asked (.headers o.status o.header) d ∈ w.log
  fed : fed w.log = if streamed w then seen else []
  noted : Noted w

structure Passing (t : Inspection F) (w : Writer) (o : Origin) : Prop where
  started : o.started
  going : w.blocked = false
  written : w.headerWritten
  sent : w.flushed
  unbroken : w.aborted = false
  decided : w.bodyDecided
  settled : w.redactPending = false
  read : unread w = false
  ordered : Ordered w.log
  clear : refused w.log = false
  line : lines w.log = [(o.status,o.header)]
  body : arrived w.log = o.body
  asked : ∃ d, .asked (.headers o.status o.header) d ∈ w.log
  ended : ∃ d, .asked .ended d ∈ w.log
  noted : Noted w
  fed : inspectable t.tables o.header → coding t.tables o.header = (.identity,true) →
    fed w.log <+: o.body ∧ min o.body.length (responseBufferLimit t.cfg) ≤ (fed w.log).length
  known : inspectable t.tables o.header → Read t o.header o.body (Response.fed w.log) ∨ counted w.log

structure Shut (t : Inspection F) (w : Writer) (o : Origin) : Prop where
  started : o.started
  blocked : w.blocked
  sent : w.flushed
  unbroken : w.aborted = false
  ordered : Ordered w.log
  refusal : Refusal w.log
  fed : inspectable t.tables o.header → coding t.tables o.header = (.identity,true) → fed w.log <+: o.body

theorem Waiting.unwritten (waiting : Waiting t w o) : w.headerWritten = false ∧ w.flushed = false := by
  rw [waiting.fresh]
  exact ⟨rfl,rfl⟩

theorem Waiting.sound (waiting : Waiting t w o) : Sound t ⟨w,o,false⟩ := by
  obtain ⟨fresh,origin⟩ := waiting
  subst origin
  have log : w.log = [] := by rw [fresh]; rfl
  have unbroken : w.aborted = false := by rw [fresh]; rfl
  refine ⟨unbroken,?_,?_,?_,nofun,?_,?_⟩ <;> simp only [log]
  · exact .nil
  · nofun
  · exact nofun
  · exact fun _ _ => ⟨ nil_prefix,fun _ => by simp [Response.fed]⟩
  · exact fun _ _ => .inl (.inl rfl)

theorem coding_streamed (enc : (w.respEnc,w.encDecodable) = c) : streamed w ↔ c = (.identity,true) := by
  rw [← enc]
  simp [streamed]

theorem Holding.sound (holding : Holding t w o o.body o.body) : Sound t ⟨w,o,false⟩ := by
  have quiet : ∀ x ∈ w.log, x.leaves = false := fun x mem => (holding.calm x mem).1
  have clear := holding.calm.refused
  refine ⟨holding.unbroken,?_,?_,?_,nofun,?_,?_⟩
  · have ordered : Ordered (w.log ++ []) := ordered_quiet quiet .nil; rwa [append_nil] at ordered
  · intro refusal; cases clear.symm.trans refusal
  · intro _ line mem
    have none' : lines w.log = [] := quiet_lines quiet
    rw [none'] at mem
    cases mem
  · intro _ identity
    have all : Response.fed w.log = o.body := by
      rw [holding.fed,if_pos ((coding_streamed holding.enc).mpr identity)]
    rw [all]
    exact ⟨prefix_refl _,fun _ => Nat.min_le_left _ _⟩
  · exact fun _ _ => .inl (.inl (quiet_arrived quiet))

theorem Passing.sound (passing : Passing t w o) (returned : Bool) : Sound t ⟨w,o,returned⟩ := by
  refine ⟨passing.unbroken,passing.ordered,?_,?_,fun _ _ => ⟨passing.line,passing.body⟩,?_,?_⟩
  · intro refusal; cases passing.clear.symm.trans refusal
  · intro _ line mem
    have own : line = (o.status,o.header) := by rw [passing.line] at mem; exact mem_singleton.mp mem
    subst own
    exact ⟨rfl,passing.asked,passing.ended⟩
  · intro inspects identity
    obtain ⟨some',most⟩ := passing.fed inspects identity
    exact ⟨some',fun _ => most⟩
  · intro inspects _
    rw [passing.body]
    exact passing.known inspects

theorem Refusal.refused (refusal : Refusal log) : refused log := by
  obtain ⟨given,d,_,asked,blocks,_⟩ := refusal
  exact any_eq_true.mpr ⟨_,asked,blocks⟩

theorem Shut.sound (shut : Shut t w o) (returned : Bool) : Sound t ⟨w,o,returned⟩ := by
  have refusal := shut.refusal.refused
  refine ⟨shut.unbroken,shut.ordered,fun _ => shut.refusal,?_,?_,?_,?_⟩
  · intro clear; cases refusal.symm.trans clear
  · intro _ clear; cases refusal.symm.trans clear
  · intro inspects identity
    refine ⟨shut.fed inspects identity,?_⟩
    intro clear
    cases refusal.symm.trans clear
  · intro _ clear; cases refusal.symm.trans clear

theorem Stopped.shut (stopped : Stopped w w' more) (started : o.started) (unbroken : w.aborted = false)
    (quiet : ∀ x ∈ w.log, x.leaves = false) (given : inspectable t.tables o.header → coding t.tables o.header = (.identity,true) →
      Response.fed w.log ++ Response.fed more <+: o.body) : Shut t w' o := by
  obtain ⟨question,d,asked,blocks,log⟩ := stopped.log
  have before : ∀ x ∈ w.log ++ more, x.leaves = false := forall_mem_append.mpr ⟨quiet,stopped.quiet⟩
  refine ⟨started,stopped.blocked,stopped.flushed,stopped.aborted.trans unbroken,?_,?_,?_⟩
  · rw [log]
    apply ordered_quiet before
    simp [Ordered,Trace.asks]
  · refine ⟨question,d,frameRefusal w.header responseBlockedBody.length,?_,blocks,?_,frameRefusal_reframed _,?_⟩
    · rw [log]; exact mem_append_left _ (mem_append_right _ asked)
    · rw [log,lines_append,quiet_lines before]; rfl
    · rw [log,arrived_append,quiet_arrived before]; simp [arrived,Trace.bytes]
  · intro inspects identity
    rw [log]
    simpa [Response.fed,Trace.fed] using given inspects identity

theorem flush_held (unsent : w.flushed = false) (unredacted : w.redacted = none) (buf : w.buf = some held) (status : w.status ≠ 0) :
    flush w = {w with flushed := true,buf := some [],
                      log := w.log ++ .sent w.status w.header :: if held = [] then [] else [.wrote held]} := by
  cases held with
  | nil => simp [flush,unsent,unredacted,commitHeader,status,buf]
  | cons b rest => simp [flush,unsent,unredacted,commitHeader,status,buf,forward]

def Silent (tail : List Trace) : Prop := ∀ x ∈ tail, x.asks = false ∧ x.line = none

theorem Silent.lines (silent : Silent tail) : lines tail = [] :=
  filterMap_eq_nil_iff.mpr fun x mem => (silent x mem).2

theorem Silent.fed (silent : Silent tail) : fed tail = [] := by
  apply flatMap_eq_nil_iff.mpr
  intro x mem
  have still := (silent x mem).1
  cases x with
  | asked => cases still
  | _ => rfl

theorem Silent.clear (silent : Silent tail) : refused tail = false := by
  apply any_eq_false.mpr
  intro x mem
  have still := (silent x mem).1
  cases x with
  | asked => cases still
  | _ => exact Bool.false_ne_true

structure Committed (log : List Trace) (status : Nat) (header : Header) (body given : GoString) : Prop where
  ordered : Ordered log
  clear : refused log = false
  line : lines log = [(status,header)]
  body : arrived log = body
  fed : fed log = given

theorem Calm.commit (calm : Calm front) (silent : Silent rest) (status : Nat) (header : Header) :
    Committed (front ++ .sent status header :: rest) status header (arrived rest) (fed front) := by
  have quiet : ∀ x ∈ front, x.leaves = false := fun x mem => (calm x mem).1
  refine ⟨?_,?_,?_,?_,?_⟩
  · apply ordered_quiet quiet
    have first : Ordered [.sent status header] := pairwise_singleton _ _
    exact ordered_append first fun x mem => (silent x mem).1
  · rw [refused_append,calm.refused]; exact silent.clear
  · rw [lines_append,quiet_lines quiet]; exact congrArg (_ :: ·) silent.lines
  · rw [arrived_append,quiet_arrived quiet]; rfl
  · rw [fed_append]; exact (congrArg (fed front ++ ·) silent.fed).trans (append_nil _)

theorem Holding.decided (holding : Holding t w o held seen) (kept : Kept {w with inspected := looked,bodyDecided := true} w' more) :
    w'.blocked = false ∧ w'.redactPending = false ∧ w'.flushed = false ∧ w'.redacted = none ∧ w'.buf = some held ∧ w'.status ≠ 0 := by
  obtain ⟨n,p,c,l,rfl⟩ := same_frame kept.frame
  exact ⟨holding.going,holding.settled,holding.unsent,holding.unredacted,holding.buf,holding.status.trans_ne holding.final⟩

theorem Holding.passes (holding : Holding t w o' held seen)
    (kept : Kept {w with inspected := w.inspected || unread w,bodyDecided := true} w' more) (ended : ∃ d, .asked .ended d ∈ more)
    (unfed : unread w = false → Response.fed more = [])
    (log : u.log = (flush w').log ++ tail) (frame : u.frame = {flush w' with pastCeiling := u.pastCeiling}.frame)
    (silent : Silent tail) (noted : Noted u) (origin : o = {o' with body := held ++ arrived tail}) (all : streamed w → seen = o.body)
    (known : streamed w = false → Read t o.header o.body (Response.fed more) ∨ counted u.log) : Passing t u o := by
  subst origin
  obtain ⟨_,_,unsent,unredacted,buf,status⟩ := holding.decided kept
  rw [flush_held unsent unredacted buf status] at log frame
  have sent : w'.status = o'.status ∧ w'.header = o'.header := by
    obtain ⟨n,p,c,l,rfl⟩ := same_frame kept.frame
    exact ⟨holding.status,holding.header⟩
  rw [sent.1,sent.2,kept.log] at log
  have silent' : Silent ((if held = [] then [] else [.wrote held]) ++ tail) := by
    intro x mem
    rcases mem_append.mp mem with own | later
    · split at own
      · cases own
      · cases mem_singleton.mp own; exact ⟨rfl,rfl⟩
    · exact silent x later
  have arrives : arrived (if held = [] then [] else [.wrote held]) = held := by
    split
    · rename_i empty
      rw [empty]
      rfl
    · exact append_nil held
  have committed := (holding.calm.append kept.calm).commit silent' o'.status o'.header
  have whole : u.log = (w.log ++ more) ++ .sent o'.status o'.header :: ((if held = [] then [] else [.wrote held]) ++ tail) := by
    rw [log]
    simp only [append_assoc,cons_append]
  rw [← whole] at committed
  have fedAll : Response.fed u.log = (if streamed w then seen else []) ++ Response.fed more := by
    rw [committed.fed,fed_append,holding.fed]
  have waiting : unread w = !streamed w := by simp [unread,holding.buf,holding.uninspected]
  have every : streamed w → Response.fed u.log = held ++ arrived tail := by
    intro live
    rw [fedAll,if_pos live,unfed (by rw [waiting,live]; rfl),append_nil]
    exact all live
  obtain ⟨n,p,c,l,rfl⟩ := same_frame kept.frame
  obtain ⟨n,p,c,l,same⟩ := same_frame frame
  generalize u.pastCeiling = beyond at same
  subst same
  refine ⟨holding.started,holding.going,holding.written,rfl,holding.unbroken,rfl,holding.settled,?_,committed.ordered,committed.clear,
    committed.line,?_,?_,?_,noted,?_,?_⟩
  · show (_ && !(w.inspected || unread w) && !streamed w) = false
    rw [waiting]
    cases streamed w <;> simp
  · rw [committed.body,arrived_append,arrives]
  · obtain ⟨d,asked⟩ := holding.asked
    rw [whole]
    exact ⟨d,mem_append_left _ (mem_append_left _ asked)⟩
  · obtain ⟨d,asked⟩ := ended
    rw [whole]
    exact ⟨d,mem_append_left _ (mem_append_right _ asked)⟩
  · intro _ identity
    rw [every ((coding_streamed holding.enc).mpr identity)]
    exact ⟨prefix_refl _,Nat.min_le_left _ _⟩
  intro _
  cases live : streamed w with
  | true =>
    rw [every live]
    exact .inl (.inr (.inl ⟨(coding_streamed holding.enc).mp live,prefix_refl _⟩))
  | false => rw [fedAll,live,if_neg Bool.false_ne_true,nil_append]; exact known live

theorem Passing.later (passing : Passing t w o') (log : u.log = w.log ++ tail) (frame : u.frame = {w with header := u.header}.frame)
    (silent : Silent tail) (noted : Noted u) (origin : o = {o' with body := o'.body ++ arrived tail})
    (covered : inspectable t.tables o.header → arrived tail = [] ∨ counted u.log ∧
      (coding t.tables o.header = (.identity,true) → responseBufferLimit t.cfg ≤ (Response.fed w.log).length)) :
    Passing t u o := by
  subst origin
  have unfed : Response.fed u.log = Response.fed w.log := by rw [log,fed_append,silent.fed,append_nil]
  obtain ⟨n,p,c,l,same⟩ := same_frame frame
  generalize u.header = changed at same
  subst same
  refine ⟨passing.started,passing.going,passing.written,passing.sent,passing.unbroken,passing.decided,passing.settled,passing.read,
    ?_,?_,?_,?_,?_,?_,noted,?_,?_⟩
  · rw [log]; exact ordered_append passing.ordered fun x mem => (silent x mem).1
  · rw [log,refused_append,passing.clear,silent.clear]; rfl
  · rw [log,lines_append,silent.lines,append_nil]; exact passing.line
  · rw [log,arrived_append,passing.body]
  · obtain ⟨d,asked⟩ := passing.asked
    rw [log]
    exact ⟨d,mem_append_left _ asked⟩
  · obtain ⟨d,asked⟩ := passing.ended
    rw [log]
    exact ⟨d,mem_append_left _ asked⟩
  · intro inspects identity
    obtain ⟨begins,most⟩ := passing.fed inspects identity
    rw [unfed]
    refine ⟨begins.trans (prefix_append _ _),?_⟩
    rcases covered inspects with nothing | ⟨_,full⟩
    · simpa [nothing] using most
    · exact (Nat.min_le_right _ _).trans (full identity)
  · intro inspects
    rcases covered inspects with nothing | ⟨count,_⟩
    · rcases passing.known inspects with read | count
      · left; simpa [nothing,unfed] using read
      · right
        rw [log,counted_append,count]
        rfl
    · exact .inr count

end Gateon.Waf.Response
