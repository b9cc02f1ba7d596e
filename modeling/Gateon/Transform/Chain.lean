import Gateon.Go.Http

namespace Gateon.Transform
open Go

-- What reading a request's body gives: nothing to read, all of it, or an error after a part.
inductive Body where
  | none
  | whole (b : GoString)
  | broken (b : GoString)
deriving DecidableEq

structure Request where
  method : GoString
  url : URL
  header : Header
  body : Body
  contentLength : Int

-- A compiled regexp with its replacement stands for what ReplaceAllString makes of a path.
structure RewriteConfig where
  path : GoString
  regexp : Option (GoString → GoString)
  addQuery : List (GoString × GoString)

inductive HeaderOp where
  | add (name value : GoString)
  | set (name value : GoString)
  | del (name : GoString)

structure BodyTransformConfig where
  requestSearch : GoString
  requestReplace : GoString
  responseSearch : GoString
  responseReplace : GoString
  contentTypeFilter : GoString

inductive Middleware where
  | rewrite (cfg : RewriteConfig)
  | addPrefix (affix : GoString)
  | stripPrefix (prefixes : List GoString)
  | replacePath (path : GoString)
  | stripPrefixRegex (replace : GoString → GoString)
  | replacePathRegex (replace : GoString → GoString)
  | headers (ops : List HeaderOp)
  | bodyTransform (cfg : BodyTransformConfig)

def Request.setPath (r : Request) (path : GoString) : Request := {r with url := {r.url with path := path}}

def rewrite (cfg : RewriteConfig) (r : Request) : Request :=
  let r := if cfg.path ≠ [] then r.setPath cfg.path
    else match cfg.regexp with
      | some replace => r.setPath (replace r.url.path)
      | none => r
  if cfg.addQuery = [] then r
  else
    let query := cfg.addQuery.foldl (fun q pair => Values.set q pair.1 pair.2) (parseQuery r.url.rawQuery)
    {r with url := {r.url with rawQuery := Values.encode query}}

def addPrefix (affix : GoString) (r : Request) : Request :=
  if hasPrefix r.url.path affix then r else r.setPath (affix ++ r.url.path)
def rooted (path : GoString) : GoString := if hasPrefix path (lit "/") then path else lit "/" ++ path

def stripPrefix (prefixes : List GoString) (r : Request) : Request :=
  match prefixes.findSome? (cutPrefix r.url.path) with
  | some rest => r.setPath (rooted rest)
  | none => r

def replacedPath : GoString := lit "X-Replaced-Path"
def replacePath (path : GoString) (r : Request) : Request :=
  Request.setPath {r with header := Header.set r.header replacedPath r.url.path} path

def HeaderOp.apply (h : Header) : HeaderOp → Header
  | .add name value => Function.update h (canonicalMIMEHeaderKey name) (h (canonicalMIMEHeaderKey name) ++ [value])
  | .set name value => Header.set h name value
  | .del name => Header.del h name

def maxBodyBytes : Nat := 10 * 2^20
def typeMatches (contentType filter : GoString) : Bool := filter == [] || contains contentType filter

def transformRequestBody (cfg : BodyTransformConfig) (r : Request) : Request :=
  match r.body with
  | .whole body =>
    if maxBodyBytes < body.length then r
    else
      let new := replaceAll body cfg.requestSearch cfg.requestReplace
      {r with body := .whole new,contentLength := new.length,header := Header.set r.header (lit "Content-Length") (decimal new.length)}
  | _ => r

def Middleware.edit : Middleware → Request → Request
  | .rewrite cfg,r => Transform.rewrite cfg r
  | .addPrefix affix,r => Transform.addPrefix affix r
  | .stripPrefix prefixes,r => Transform.stripPrefix prefixes r
  | .replacePath path,r => Transform.replacePath path r
  | .stripPrefixRegex replace,r => r.setPath (rooted (replace r.url.path))
  | .replacePathRegex replace,r => Transform.replacePath (replace r.url.path) r
  | .headers ops,r => {r with header := ops.foldl HeaderOp.apply r.header}
  | .bodyTransform cfg,r =>
    if cfg.requestSearch ≠ [] ∧ r.body ≠ .none ∧ typeMatches (Header.get r.header (lit "Content-Type")) cfg.contentTypeFilter then
      transformRequestBody cfg r
    else r

def Middleware.copies : Middleware → Bool
  | .bodyTransform cfg => cfg.responseSearch ≠ []
  | _ => false

def Request.upstream (r : Request) : Request := {r with header := Header.del r.header (lit "Accept-Encoding")}

-- A copy has a header map of its own and shares the URL.
def pass : List Middleware → Request → Request × Request
  | [],r => (r,r)
  | m :: rest,r =>
    let r := m.edit r
    if m.copies then
      let below := pass rest r.upstream
      ({r with url := below.1.url},below.2)
    else pass rest r

def Request.entry (r : Request) : GoString × URL × Header × Body := (r.method,r.url,r.header,r.body)

theorem entry_eq {r s : Request} : r.entry = s.entry ↔ r.method = s.method ∧ r.url = s.url ∧ r.header = s.header ∧ r.body = s.body := by
  simp [Request.entry]

theorem upstream_entry {r s : Request} (same : r.entry = s.entry) : r.upstream.entry = s.upstream.entry := by
  obtain ⟨method,url,header,body⟩ := entry_eq.mp same
  exact entry_eq.mpr ⟨method,url,congrArg (Header.del · (lit "Accept-Encoding")) header,body⟩

theorem edit_entry (m : Middleware) (same : Request.entry r = Request.entry s) : (m.edit r).entry = (m.edit s).entry := by
  obtain ⟨method,url,header,body,length⟩ := r
  obtain ⟨_,_,_,_,length'⟩ := s
  obtain ⟨rfl,same⟩ := Prod.mk.inj same
  obtain ⟨rfl,same⟩ := Prod.mk.inj same
  obtain ⟨rfl,rfl⟩ := Prod.mk.inj same
  cases m with
  | rewrite cfg => simp only [Middleware.edit,rewrite]; split <;> split <;> (try split) <;> rfl
  | addPrefix affix => simp only [Middleware.edit,addPrefix]; split <;> rfl
  | stripPrefix prefixes => simp only [Middleware.edit,stripPrefix]; split <;> rfl
  | bodyTransform cfg =>
    simp only [Middleware.edit]
    split
    · simp only [transformRequestBody]; split <;> (try split) <;> rfl
    · rfl
  | _ => rfl

-- transformResponseWriter; its header map is the one of the writer below.
structure ResponseWriter where
  w : Client
  filter : GoString
  body : GoString
  status : Nat
  wroteHeader : Bool
  passthrough : Bool

def ResponseWriter.new (w : Client) (filter : GoString) : ResponseWriter := ⟨w,filter,[],200,false,false⟩

def ResponseWriter.startPassthrough (bw : ResponseWriter) : ResponseWriter :=
  let w := bw.w.writeHeader bw.status
  {bw with passthrough := true,w := if bw.body = [] then w else w.write bw.body,body := []}

section
variable (u : Tables)

namespace ResponseWriter
variable (bw : ResponseWriter)

def rewritable : Bool :=
  let ct := Header.get bw.w.header (lit "Content-Type")
  let enc := Header.get bw.w.header (lit "Content-Encoding")
  bw.status < 400 && (enc == [] || equalFold u enc (lit "identity")) && !hasPrefix ct (lit "text/event-stream") &&
    !hasPrefix ct (lit "application/grpc") && typeMatches ct bw.filter

def writeHeader (code : Nat) : ResponseWriter :=
  if informational code then {bw with w := bw.w.writeHeader code}
  else if bw.wroteHeader then bw
  else
    let bw := {bw with wroteHeader := true,status := code}
    if bw.rewritable u then bw else bw.startPassthrough

def hold (b : GoString) : ResponseWriter :=
  if bw.passthrough then {bw with w := bw.w.write b}
  else if maxBodyBytes < bw.body.length + b.length then
    let bw := bw.startPassthrough
    {bw with w := bw.w.write b}
  else {bw with body := bw.body ++ b}

def opened : ResponseWriter := if bw.wroteHeader then bw else bw.writeHeader u 200
def write (b : GoString) : ResponseWriter := (bw.opened u).hold b

def flush : ResponseWriter :=
  let bw := bw.opened u
  if bw.passthrough then {bw with w := bw.w.flush} else bw

def call : Call → ResponseWriter
  | .edit name f => {bw with w := bw.w.edit name f}
  | .writeHeader code => bw.writeHeader u code
  | .write b => bw.write u b
  | .flush => bw.flush u

def emit (search replace : GoString) : ResponseWriter :=
  let out := replaceAll bw.body search replace
  let header := Header.set (Header.del bw.w.header (lit "ETag")) (lit "Content-Length") (decimal out.length)
  let w := {bw.w with header := header}.writeHeader bw.status
  {bw with w := if out = [] then w else w.write out}

def finish (search replace : GoString) : ResponseWriter :=
  if bw.passthrough then bw else (bw.opened u).emit search replace

end ResponseWriter

def transformWrapper (cfg : BodyTransformConfig) : Wrapper where
  State := ResponseWriter
  start := fun outer => ResponseWriter.new (Client.new outer) cfg.contentTypeFilter
  call := ResponseWriter.call u
  returns := fun bw _ => (bw.finish u cfg.responseSearch cfg.responseReplace,false)
  client := ResponseWriter.w
  passes := ResponseWriter.passthrough

end

def ResponseWriter.Careful (bw : ResponseWriter) : Handled → Prop
  | .call (.edit name f) => bw.wroteHeader = false ∨ bw.passthrough ∨
      f (bw.w.header (canonicalMIMEHeaderKey name)) = bw.w.header (canonicalMIMEHeaderKey name)
  | _ => True

instance ResponseWriter.decidableCareful : ∀ bw e, Decidable (ResponseWriter.Careful bw e)
  | bw,.call (.edit name f) => inferInstanceAs (Decidable (bw.wroteHeader = false ∨ bw.passthrough = true ∨
      f (bw.w.header (canonicalMIMEHeaderKey name)) = bw.w.header (canonicalMIMEHeaderKey name)))
  | _,.call (.writeHeader _) => .isTrue trivial
  | _,.call (.write _) => .isTrue trivial
  | _,.call .flush => .isTrue trivial
  | _,.returns _ => .isTrue trivial

instance ResponseWriter.decidableAllowed (x : Exchange (transformWrapper u cfg)) (e : Handled) :
    Decidable (x.allowed ResponseWriter.Careful e) := ResponseWriter.decidableCareful x.wrapped e

structure Untouched (bw : ResponseWriter) (p : Client) : Prop where
  going : bw.wroteHeader = false ∧ bw.passthrough = false
  header : bw.w.header = p.header
  unsent : bw.w.sent = none ∧ p.sent = none
  empty : bw.w.body = [] ∧ bw.body = [] ∧ p.body = []

structure Held (bw : ResponseWriter) (p : Client) : Prop where
  held : bw.wroteHeader ∧ bw.passthrough = false
  final : informational bw.status = false
  sent : p.sent = some (bw.status,bw.w.header)
  unsent : bw.w.sent = none
  body : p.body = bw.body
  empty : bw.w.body = []

def Passed (bw : ResponseWriter) (p : Client) : Prop := bw.wroteHeader ∧ bw.passthrough ∧ Together bw.w p
def Related (bw : ResponseWriter) (p : Client) : Prop := Untouched bw p ∨ Held bw p ∨ Passed bw p

theorem edit_same {h : Header} (same : f (h (canonicalMIMEHeaderKey name)) = h (canonicalMIMEHeaderKey name)) : Header.edit h name f = h := by
  rw [Header.edit,same,Function.update_eq_self]

theorem Held.passthrough (held : Held bw p) : Passed bw.startPassthrough p := by
  refine ⟨held.held.1,rfl,?_⟩
  have sent : bw.w.writeHeader bw.status = {bw.w with sent := some (bw.status,bw.w.header)} := writeHeader_final held.unsent held.final
  by_cases none' : bw.body = []
  · have through : bw.startPassthrough.w = {bw.w with sent := some (bw.status,bw.w.header)} := by
      simp [ResponseWriter.startPassthrough,none',sent]
    rw [through]
    exact ⟨held.sent.symm,by simp [held.sent],by rw [held.empty,held.body,none']⟩
  · have through : bw.startPassthrough.w = {bw.w with sent := some (bw.status,bw.w.header),body := bw.w.body ++ bw.body} := by
      simp only [ResponseWriter.startPassthrough,none',if_false,sent]
      exact write_late rfl bw.body
    rw [through]
    exact ⟨held.sent.symm,by simp [held.sent],by simp [held.empty,held.body]⟩

variable {u : Tables}

theorem Untouched.writeHeader (before : Untouched bw p) (final : informational code = false) :
    Held (bw.writeHeader u code) (p.writeHeader code) ∨ Passed (bw.writeHeader u code) (p.writeHeader code) := by
  have held : Held {bw with wroteHeader := true,status := code} (p.writeHeader code) := by
    rw [writeHeader_final before.unsent.2 final]
    exact ⟨⟨rfl,before.going.2⟩,final,by rw [before.header],before.unsent.1,before.empty.2.2.trans before.empty.2.1.symm,before.empty.1⟩
  simp only [ResponseWriter.writeHeader,final,before.going.1,Bool.false_eq_true,if_false]
  split
  · exact .inl held
  · exact .inr held.passthrough

theorem opened_related (related : Related bw p) :
    Held (bw.opened u) (p.writeHeader 200) ∨ Passed (bw.opened u) (p.writeHeader 200) := by
  unfold ResponseWriter.opened
  rcases related with before | held | ⟨wrote,passes,together⟩
  · rw [if_neg (by simp [before.going.1])]; exact before.writeHeader ok_final
  · rw [if_pos held.held.1,writeHeader_late (by simp [held.sent])]; exact .inl held
  · rw [if_pos wrote]; exact .inr ⟨wrote,passes,together.plain 200⟩

theorem hold_related (related : Held bw p ∨ Passed bw p) (b : GoString) :
    Held (bw.hold b) (p.write b) ∨ Passed (bw.hold b) (p.write b) := by
  unfold ResponseWriter.hold
  rcases related with held | ⟨wrote,passes,together⟩
  · have settled : p.sent.isSome := by simp [held.sent]
    rw [if_neg (by simp [held.held.2])]
    split
    · obtain ⟨wrote,passes,together⟩ := held.passthrough; exact .inr ⟨wrote,passes,together.write b⟩
    · rw [write_late settled]
      exact .inl {held with body := by simp [held.body]}
  · rw [if_pos passes]; exact .inr ⟨wrote,passes,together.write b⟩

theorem call_related (related : Related bw p) (careful : bw.Careful (.call made)) : Related (bw.call u made) (p.call made) := by
  cases made with
  | edit name f =>
    rcases related with before | held | ⟨wrote,passes,together⟩
    · refine .inl {before with header := ?_}
      exact congrArg (Header.edit · name f) before.header
    · have same : Header.edit bw.w.header name f = bw.w.header := by
        apply edit_same
        simpa [ResponseWriter.Careful,held.held] using careful
      refine .inr (.inl {held with sent := ?_})
      exact held.sent.trans (congrArg (fun h => some (bw.status,h)) same.symm)
    · exact .inr (.inr ⟨wrote,passes,together.edits name f⟩)
  | writeHeader code =>
    by_cases hint : informational code
    · have forwarded : bw.call u (.writeHeader code) = {bw with w := bw.w.writeHeader code} := by
        simp [ResponseWriter.call,ResponseWriter.writeHeader,hint]
      rw [forwarded,Client.call]
      rcases related with before | held | ⟨wrote,passes,together⟩
      · rw [writeHeader_hint before.unsent.1 hint,writeHeader_hint before.unsent.2 hint]
        exact .inl {before with}
      · rw [writeHeader_hint held.unsent hint,writeHeader_late (by simp [held.sent])]
        exact .inr (.inl {held with})
      · exact .inr (.inr ⟨wrote,passes,together.late code code⟩)
    · have final : informational code = false := Bool.eq_false_iff.mpr hint
      rcases related with before | held | ⟨wrote,passes,together⟩
      · exact .inr (before.writeHeader final)
      · have still : bw.call u (.writeHeader code) = bw := by
          simp [ResponseWriter.call,ResponseWriter.writeHeader,final,held.held]
        rw [still,Client.call,writeHeader_late (by simp [held.sent])]
        exact .inr (.inl held)
      · have still : bw.call u (.writeHeader code) = bw := by
          simp [ResponseWriter.call,ResponseWriter.writeHeader,final,wrote]
        rw [still]
        exact .inr (.inr ⟨wrote,passes,together.plain code⟩)
  | write b =>
    have opened := opened_related (u := u) related
    rw [Client.call,write_opened p]
    exact .inr (hold_related opened b)
  | flush =>
    have opened := opened_related (u := u) related
    simp only [ResponseWriter.call,ResponseWriter.flush,Client.call,Client.flush]
    split
    · rename_i passes
      rcases opened with held | ⟨wrote,_,together⟩
      · cases held.held.2.symm.trans passes
      · refine .inr (.inr ⟨wrote,passes,?_⟩); rwa [writeHeader_late (together.sent ▸ together.settled)]
    · exact .inr opened

theorem emit_passed (passed : Passed bw p) (empty : bw.body = []) (search replace : GoString) :
    Together (bw.emit search replace).w p := by
  have out : replaceAll bw.body search replace = [] := by rw [empty]; rfl
  have settled := passed.2.2.sent ▸ passed.2.2.settled
  have late (h : Header) : {bw.w with header := h}.writeHeader bw.status = {bw.w with header := h} :=
    writeHeader_late (c := {bw.w with header := h}) settled _
  simp only [ResponseWriter.emit,out,if_true,late]
  exact ⟨passed.2.2.sent,passed.2.2.settled,passed.2.2.body⟩

theorem opened_body (before : Untouched bw p) : (bw.opened u).body = [] := by
  have empty := before.empty.2.1
  simp only [ResponseWriter.opened,before.going.1,ResponseWriter.writeHeader,ok_final,Bool.false_eq_true,if_false]
  split
  · exact empty
  · rfl

theorem finish_result {bw : ResponseWriter} (related : Related bw p) (declined : (bw.finish u search replace).passthrough) :
    (bw.finish u search replace).w.result = p.result := by
  unfold ResponseWriter.finish at declined ⊢
  rcases related with before | held | ⟨_,passes,together⟩
  · have opened : bw.opened u = bw.writeHeader u 200 := by simp [ResponseWriter.opened,before.going.1]
    rw [if_neg (by simp [before.going.2])] at declined ⊢
    rcases before.writeHeader (u := u) ok_final with held | passed
    · rw [← opened] at held; cases held.held.2.symm.trans declined
    · rw [← opened] at passed
      exact (emit_passed passed (opened_body before) _ _).result.trans (Go.finish_result p)
  · have opened : bw.opened u = bw := by simp [ResponseWriter.opened,held.held.1]
    rw [if_neg (by simp [held.held.2]),opened] at declined
    cases held.held.2.symm.trans declined
  · rw [if_pos passes]; exact together.result

def transformSimulation (cfg : BodyTransformConfig) : Simulation (transformWrapper u cfg) ResponseWriter.Careful where
  Related := fun _ => Related
  starts := fun _ => .inl ⟨⟨rfl,rfl⟩,rfl,⟨rfl,rfl⟩,rfl,rfl,rfl⟩
  calls := call_related
  ends := fun related _ _ passes => finish_result related passes
  again := fun _ _ more => Bool.noConfusion more

end Gateon.Transform
