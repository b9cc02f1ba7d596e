import Gateon.Go.Http
import Gateon.Lib.StreamCodec

namespace Gateon.Traffic.Compress
open Go StreamCodec Option Function

-- Content codings as RFC 9110 reads them: names fold case, x-gzip is gzip.
def codingName (token : GoString) : GoString :=
  let name := token.map lowerByte
  if name = lit "x-gzip" then lit "gzip" else name

-- A weight in thousandths: at most three decimals, and at most 1.
def qvalue (text : GoString) : Option Nat :=
  let (whole,decimals,_) := cut text (byte '.')
  if 3 < decimals.length ∨ decimals.all isDigit = false then none
  else if whole = lit "0" then some ((atoi (decimals ++ List.replicate (3 - decimals.length) 48)).1.toNat)
  else if whole = lit "1" ∧ decimals.all (· == 48) then some 1000
  else none

def weight : GoString → Option Nat
  | q :: eq :: text => if lowerByte q = byte 'q' ∧ eq = byte '=' then qvalue text else none
  | _ => none

-- A member of Accept-Encoding: a coding, identity or *, and its weight.
def listing (member : GoString) : Option (GoString × Nat) :=
  let (token,parameter,weighted) := cut member (byte ';')
  let token := trimString token
  if token = [] ∨ token.all isTokenByte = false then none
  else if weighted then (weight (trimString parameter)).map fun q => (codingName token,q)
  else some (codingName token,1000)

section
variable (lines : List GoString)
include lines

def listings : List (GoString × Nat) := (lines.flatMap fun line => split line (byte ',')).filterMap listing
def weights (name : GoString) : List Nat := ((listings lines).filter fun l => l.1 = name).map Prod.snd

-- Listed by name or else by *, not with weight 0; without the field all are.
def accepts (coding : GoString) : Bool :=
  let own := weights lines coding
  let others := weights lines (lit "*")
  lines = [] ∨ if own = [] then others ≠ [] ∧ 0 ∉ others else 0 ∉ own

def codings : List GoString :=
  ((lines.flatMap fun line => split line (byte ',')).map fun token => codingName (trimString token)).filter (· ≠ [])

end

def Acceptable (accept lines : List GoString) : Prop := ∀ coding ∈ codings lines, coding = lit "identity" ∨ accepts accept coding

instance (accept lines : List GoString) : Decidable (Acceptable accept lines) :=
  inferInstanceAs (Decidable (∀ coding ∈ codings lines, coding = lit "identity" ∨ accepts accept coding = true))

inductive Algorithm where
  | auto
  | gzip
  | br
  deriving DecidableEq

inductive Coding where
  | gzip
  | br
  deriving DecidableEq

def Coding.text : Coding → GoString
  | .gzip => lit "gzip"
  | .br => lit "br"

def selectCompressionEncoding (acceptEncoding : GoString) (algorithm : Algorithm) : Option Coding :=
  let isGzip := contains acceptEncoding (lit "gzip")
  let isBrotli := contains acceptEncoding (lit "br")
  match algorithm with
  | .gzip => if isGzip then some .gzip else none
  | .br => if isBrotli then some .br else none
  | .auto => if isBrotli then some .br else if isGzip then some .gzip else none

-- encoderGate, with the slots ever taken and ever returned; the channel holds the difference.
structure Gate where
  capacity : Nat
  acquired : Nat
  released : Nat

def Gate.tryAcquire (g : Gate) : Bool × Gate :=
  if g.acquired < g.released + g.capacity then (true,{g with acquired := g.acquired + 1}) else (false,g)
def Gate.release (g : Gate) : Gate := {g with released := g.released + 1}

structure CompressConfig where
  minResponseBodyBytes : Int
  excludedContentTypes : List GoString
  includedContentTypes : List GoString
  maxBufferBytes : Int
  algorithm : GoString

structure CompressWriter where
  w : Client
  encoding : Coding
  gzipAccepted : Bool
  brotliSlot : Bool
  minBytes : Int
  maxBytes : Int
  excluded : List GoString
  included : List GoString
  status : Nat
  wroteHeader : Bool
  buf : GoString
  compressor : Option (List (Op UInt8))
  decided : Bool
  should : Bool
  undersized : Bool
  oversized : Bool

def CompressWriter.new (w : Client) (encoding : Coding) (gzipAccepted : Bool) (minBytes maxBytes : Int) (excluded included : List GoString) :
    CompressWriter :=
  ⟨w,encoding,gzipAccepted,false,minBytes,maxBytes,excluded,included,200,false,[],none,false,false,false,false⟩

def CompressWriter.claimEncoder (w : CompressWriter) (g : Gate) : Bool × CompressWriter × Gate :=
  if w.encoding ≠ .br then (true,w,g)
  else if g.tryAcquire.1 then (true,{w with brotliSlot := true},g.tryAcquire.2)
  else (w.gzipAccepted,{w with encoding := .gzip},g)

section
variable (codecs : Coding → Codec UInt8)

-- The compressor of an open writer is not nil.
def CompressWriter.encode (w : CompressWriter) (op : Op UInt8) : CompressWriter :=
  match w.compressor with
  | some past => {w with w := w.w.write ((codecs w.encoding).emit past op),compressor := some (past ++ [op])}
  | none => w

def CompressWriter.startEncoding (w : CompressWriter) : CompressWriter :=
  let h := Header.del (Header.set w.w.header (lit "Content-Encoding") w.encoding.text) (lit "Content-Length")
  let h := Header.edit h (lit "Vary") (· ++ [lit "Accept-Encoding"])
  let w := {w with w := {w.w with header := h}.writeHeader w.status,compressor := some []}
  if w.buf = [] then w else w.encode codecs (.write w.buf)

def CompressWriter.startPlain (w : CompressWriter) : CompressWriter :=
  let c := w.w.writeHeader w.status
  {w with w := if w.buf = [] then c else c.write w.buf}

variable (u : Tables)

def parseContentTypes (types : List GoString) : List GoString := (types.map fun s => toLower u (trimSpace s)).filter (· ≠ [])

def normalizeCompressionAlgorithm (algorithm : GoString) : Algorithm :=
  let name := toLower u (trimSpace algorithm)
  if name = [] ∨ name = lit "auto" then .auto
  else if name = lit "gzip" then .gzip
  else if name = lit "br" ∨ name = lit "brotli" then .br
  else .auto

variable (w : CompressWriter)

namespace CompressWriter

def shouldCompress : Bool :=
  let h := w.w.header
  let ct := toLower u (trimSpace ((split (Header.get h (lit "Content-Type")) (byte ';')).headD []))
  if w.undersized || w.oversized || Header.get h (lit "Content-Encoding") != [] || 300 ≤ w.status || w.status == 204 || w.status == 304 then false
  else if hasPrefix ct (lit "application/grpc") || ct == lit "text/event-stream" || w.excluded.contains ct then false
  else w.included == [] || w.included.contains ct

def decide (g : Gate) : CompressWriter × Gate :=
  if w.decided then (w,g)
  else
    let w := {w with decided := true}
    let claimed := if w.shouldCompress u then w.claimEncoder g else (false,w,g)
    let w := {claimed.2.1 with should := claimed.1}
    let w := if w.should then w.startEncoding codecs else w.startPlain
    ({w with buf := []},claimed.2.2)

def writeHeader (code : Nat) (g : Gate) : CompressWriter × Gate :=
  if code < 200 then ({w with w := w.w.writeHeader code},g)
  else if w.wroteHeader then (w,g)
  else
    let w := {w with status := code,wroteHeader := true}
    let ct := toLower u (Header.get w.w.header (lit "Content-Type"))
    let declared := atoi (Header.get w.w.header (lit "Content-Length"))
    if contains ct (lit "text/event-stream") || hasPrefix ct (lit "application/grpc") then w.decide codecs u g
    else if declared.2 then
      {w with undersized := declared.1 < w.minBytes,oversized := w.maxBytes < declared.1}.decide codecs u g
    else (w,g)

def take (b : GoString) (g : Gate) : CompressWriter × Gate :=
  if w.decided then (if w.should then w.encode codecs (.write b) else {w with w := w.w.write b},g)
  else
    let w := {w with buf := w.buf ++ b}
    if w.minBytes ≤ w.buf.length then w.decide codecs u g else (w,g)

def write (b : GoString) (g : Gate) : CompressWriter × Gate :=
  let opened := if w.wroteHeader then (w,g) else w.writeHeader codecs u 200 g
  opened.1.take codecs u b opened.2

def flush (g : Gate) : CompressWriter × Gate :=
  let decided := w.decide codecs u g
  let w := if decided.1.should then decided.1.encode codecs .flush else decided.1
  ({w with w := w.w.flush},decided.2)

def closeEncoder : CompressWriter :=
  match w.should,w.compressor with
  | true,some past => {w with w := w.w.write ((codecs w.encoding).close past),compressor := none}
  | _,_ => w

def close (g : Gate) : CompressWriter × Gate :=
  let slot := w.brotliSlot
  let w := {w with brotliSlot := false}
  let decided := if w.decided then (w,g) else {w with undersized := true}.decide codecs u g
  (decided.1.closeEncoder codecs,if slot then decided.2.release else decided.2)

def call (made : Call) (g : Gate) : CompressWriter × Gate :=
  match made with
  | .edit name f => ({w with w := w.w.edit name f},g)
  | .writeHeader code => w.writeHeader codecs u code g
  | .write b => w.write codecs u b g
  | .flush => w.flush codecs u g

end CompressWriter

end

structure Request where
  method : GoString
  path : GoString
  header : Header
  skip : Bool

def isCorsPreflight (r : Request) : Bool :=
  r.method == lit "OPTIONS" && Header.get r.header (lit "Origin") != [] && Header.get r.header (lit "Access-Control-Request-Method") != []

section
variable (u : Tables)

def compressWithConfig (cfg : CompressConfig) (r : Request) (w : Client) : Option CompressWriter :=
  let minBytes := if cfg.minResponseBodyBytes ≤ 0 then 1024 else cfg.minResponseBodyBytes
  let maxBytes := if cfg.maxBufferBytes ≤ 0 then 10 * 1024 * 1024 else cfg.maxBufferBytes
  let acceptEncoding := Header.get r.header (lit "Accept-Encoding")
  let contentType := toLower u (Header.get r.header (lit "Content-Type"))
  let accept := toLower u (Header.get r.header (lit "Accept"))
  if isCorsPreflight r || r.skip || Header.get r.header (lit "Upgrade") != [] then none
  else (selectCompressionEncoding acceptEncoding (normalizeCompressionAlgorithm u cfg.algorithm)).bind fun encoding =>
    if hasPrefix contentType (lit "application/grpc") || hasPrefix contentType (lit "text/event-stream") ||
        contains accept (lit "text/event-stream") || r.path == lit "/v1/watch" || r.path == lit "/v1/logs" then none
    else some (CompressWriter.new w encoding (contains acceptEncoding (lit "gzip")) minBytes maxBytes
      (parseContentTypes u cfg.excludedContentTypes) (parseContentTypes u cfg.includedContentTypes))

end

inductive Writer where
  | direct (c : Client)
  | compressed (w : CompressWriter)

def Writer.client : Writer → Client
  | .direct c => c
  | .compressed w => w.w

def codingKey : GoString := lit "Content-Encoding"
def labels (c : Client) : List GoString := (c.sent.elim c.header Prod.snd) codingKey

def undo (codecs : Coding → Codec UInt8) : Option Coding → GoString → Option GoString
  | none,body => some body
  | some coding,body => (codecs coding).decode body

-- At most one coding more than the handler's own; decoded, the body is the handler's.
def Delivered (codecs : Coding → Codec UInt8) (c plain : Client) : Prop :=
  ∃ applied, codings (labels c) = codings (labels plain) ++ (applied.map Coding.text).toList ∧ undo codecs applied c.body = some plain.body

def acceptLines (r : Request) : List GoString := Header.values r.header (lit "Accept-Encoding")

-- What the search for "br" and "gzip" in the first line finds is accepted.
def Negotiable (algorithm : Algorithm) (accept : List GoString) : Prop :=
  (algorithm ≠ .gzip → contains (accept.headD []) (lit "br") → accepts accept (lit "br")) ∧
  (contains (accept.headD []) (lit "gzip") → (algorithm = .br → contains (accept.headD []) (lit "br")) →
    accepts accept (lit "gzip"))

-- A handler's own Content-Encoding that the client accepts and whose first line is not empty.
def Fit (accept lines : List GoString) : Prop := Acceptable accept lines ∧ (lines.headD [] = [] → codings lines = [])

-- Content-Encoding stays while the headers are held back.
def Writer.Editable (accept : List GoString) (f : List GoString → List GoString) : Writer → Prop
  | .direct c => c.sent = none → Fit accept (f (c.header codingKey))
  | .compressed w => w.decided = false →
      if w.wroteHeader then f (w.w.header codingKey) = w.w.header codingKey else Fit accept (f (w.w.header codingKey))

instance : Decidable (Negotiable algorithm accept) :=
  inferInstanceAs (Decidable ((_ → _ → _) ∧ (_ → (_ → _) → _)))
instance : Decidable (Fit accept lines) := inferInstanceAs (Decidable (Acceptable accept lines ∧ (lines.headD [] = [] → codings lines = [])))

instance : ∀ writer : Writer, Decidable (writer.Editable accept f)
  | .direct c => inferInstanceAs (Decidable (c.sent = none → Fit accept (f (c.header codingKey))))
  | .compressed w => inferInstanceAs (Decidable (w.decided = false →
      if w.wroteHeader then f (w.w.header codingKey) = w.w.header codingKey else Fit accept (f (w.w.header codingKey))))

-- What a call may do to the slots: take one for a response that has none.
structure Takes (slot slot' : Bool) (g g' : Gate) : Prop where
  capacity : g'.capacity = g.capacity
  released : g'.released = g.released
  acquired : g'.acquired + slot.toNat = g.acquired + slot'.toNat
  grows : g.acquired ≤ g'.acquired
  room : g.acquired ≤ g.released + g.capacity → g'.acquired ≤ g'.released + g'.capacity

theorem Takes.refl (slot : Bool) (g : Gate) : Takes slot slot g g := ⟨rfl,rfl,rfl,le_rfl,id⟩

theorem Takes.trans (first : Takes a b g g') (next : Takes b c g' g'') : Takes a c g g'' where
  capacity := next.capacity.trans first.capacity
  released := next.released.trans first.released
  acquired := by have := first.acquired; have := next.acquired; omega
  grows := Nat.le_trans first.grows next.grows
  room := next.room ∘ first.room

abbrev Leads (P : CompressWriter → Prop) (w : CompressWriter) (g : Gate) (next : CompressWriter × Gate) : Prop :=
  P next.1 ∧ Takes w.brotliSlot next.1.brotliSlot g next.2

structure Offered (accept : List GoString) (w : CompressWriter) : Prop where
  chosen : accepts accept w.encoding.text
  fallback : w.encoding = .br → w.gzipAccepted → accepts accept (lit "gzip")

structure Unmoved (w w' : CompressWriter) : Prop where
  client : w'.w = w.w
  status : w'.status = w.status
  buf : w'.buf = w.buf
  decided : w'.decided = w.decided

theorem claimEncoder_spec (w : CompressWriter) (g : Gate) (slotless : w.brotliSlot = false) (offered : Offered accept w) :
    Unmoved w (w.claimEncoder g).2.1 ∧ ((w.claimEncoder g).1 → accepts accept (w.claimEncoder g).2.1.encoding.text) ∧
    Takes w.brotliSlot (w.claimEncoder g).2.1.brotliSlot g (w.claimEncoder g).2.2 := by
  unfold CompressWriter.claimEncoder
  split
  · exact ⟨⟨rfl,rfl,rfl,rfl⟩,fun _ => offered.chosen,.refl _ _⟩
  rename_i br
  have br : w.encoding = .br := not_not.mp br
  split
  · rename_i free
    unfold Gate.tryAcquire at free ⊢
    split at free
    · rename_i room
      rw [if_pos room]
      exact ⟨⟨rfl,rfl,rfl,rfl⟩,fun _ => offered.chosen,rfl,rfl,by simp [slotless],Nat.le_succ _,fun _ => room⟩
    · cases free
  · exact ⟨⟨rfl,rfl,rfl,rfl⟩,offered.fallback br,.refl _ _⟩

structure Ready (accept : List GoString) (w : CompressWriter) (p : Client) : Prop where
  unsent : w.w.sent = none
  empty : w.w.body = []
  final : informational w.status = false
  sent : p.sent.isSome
  own : labels p = w.w.header codingKey
  body : p.body = w.buf
  fit : Fit accept (labels p)

structure Core where
  w : Client
  encoding : Coding
  compressor : Option (List (Op UInt8))
  should : Bool

def CompressWriter.core (w : CompressWriter) : Core := ⟨w.w,w.encoding,w.compressor,w.should⟩

structure Passing (accept : List GoString) (w : Core) (p : Client) : Prop where
  should : w.should = false
  sent : w.w.sent.isSome ∧ p.sent.isSome
  own : labels w.w = labels p
  body : w.w.body = p.body
  fit : Fit accept (labels p)

section
variable (codecs : Coding → Codec UInt8)

structure Encoding (accept : List GoString) (w : Core) (p : Client) (ops : List (Op UInt8)) : Prop where
  should : w.should
  compressor : w.compressor = some ops
  sent : w.w.sent.isSome ∧ p.sent.isSome
  label : labels w.w = [w.encoding.text]
  own : codings (labels p) = []
  accepted : accepts accept w.encoding.text
  coded : w.w.body = (codecs w.encoding).output ops
  body : p.body = written ops

def Settled (accept : List GoString) (w : CompressWriter) (p : Client) : Prop :=
  w.decided ∧ (Passing accept w.core p ∨ ∃ ops, Encoding codecs accept w.core p ops)

variable {codecs}

theorem Ready.startPlain (ready : Ready accept w p) :
    w.startPlain.core = {w with w := {w.w with sent := some (w.status,w.w.header),body := w.buf}} := by
  have sent := writeHeader_final ready.unsent ready.final
  by_cases none' : w.buf = []
  · simp only [CompressWriter.startPlain,CompressWriter.core,none',if_true,sent]; rw [← ready.empty]
  · simp only [CompressWriter.startPlain,CompressWriter.core,none',if_false,sent]
    rw [write_late rfl,ready.empty,List.nil_append]

theorem Ready.plain (ready : Ready accept w p) (should : w.should = false) : Passing accept w.startPlain.core p := by
  rw [ready.startPlain]
  exact ⟨should,⟨rfl,ready.sent⟩,ready.own.symm,ready.body.symm,ready.fit⟩

theorem Encoding.encode {w : CompressWriter} (coding : Encoding codecs accept w.core p ops) (op : Op UInt8)
    (next : p'.sent.isSome ∧ labels p' = labels p ∧ p'.body = p.body ++ op.written) :
    Encoding codecs accept (w.encode codecs op).core p' (ops ++ [op]) := by
  have wrote : w.w.write ((codecs w.encoding).emit ops op) = {w.w with body := w.w.body ++ (codecs w.encoding).emit ops op} :=
    write_late coding.sent.1 _
  have shape : (w.encode codecs op).core =
      ⟨{w.w with body := w.w.body ++ (codecs w.encoding).emit ops op},w.encoding,some (ops ++ [op]),w.should⟩ := by
    simp only [CompressWriter.encode,show w.compressor = some ops from coding.compressor,CompressWriter.core,wrote]
  have coded : w.w.body = (codecs w.encoding).output ops := coding.coded
  rw [shape]
  refine ⟨coding.should,rfl,⟨coding.sent.1,next.1⟩,coding.label,?_,coding.accepted,?_,?_⟩
  · rw [next.2.1]; exact coding.own
  · rw [output_snoc,coded]
  · rw [next.2.2,written_snoc,← coding.body]

theorem coding_names : canonicalMIMEHeaderKey (lit "Content-Encoding") = codingKey ∧ canonicalMIMEHeaderKey (lit "Content-Length") ≠ codingKey ∧
    canonicalMIMEHeaderKey (lit "Vary") ≠ codingKey := by decide

theorem labelled (h : Header) (text : GoString) : Header.edit (Header.del (Header.set h (lit "Content-Encoding") text) (lit "Content-Length"))
    (lit "Vary") f codingKey = [text] := by
  obtain ⟨own,length,vary⟩ := coding_names
  simp only [Header.edit,Header.del,Header.set,own]
  rw [update_of_ne vary.symm,update_of_ne length.symm,update_self]

theorem Ready.encoding (ready : Ready accept w p) (should : w.should) (plain : Header.get w.w.header (lit "Content-Encoding") = [])
    (accepted : accepts accept w.encoding.text) :
    ∃ ops, Encoding codecs accept (w.startEncoding codecs).core p ops := by
  let h := Header.edit (Header.del (Header.set w.w.header (lit "Content-Encoding") w.encoding.text) (lit "Content-Length"))
    (lit "Vary") (· ++ [lit "Accept-Encoding"])
  let opened : CompressWriter := {w with w := {w.w with header := h}.writeHeader w.status,compressor := some []}
  have sent : {w.w with header := h}.writeHeader w.status = {w.w with header := h,sent := some (w.status,h)} :=
    writeHeader_final (c := {w.w with header := h}) ready.unsent ready.final
  have core : opened.core = ⟨{w.w with header := h,sent := some (w.status,h)},w.encoding,some [],w.should⟩ := by
    simp only [opened,CompressWriter.core,sent]
  have own : codings (labels p) = [] := ready.fit.2 (by rw [ready.own]; rwa [Header.get,Header.values,coding_names.1] at plain)
  have first : Encoding codecs accept opened.core {p with body := []} [] := by
    rw [core]
    exact ⟨should,rfl,⟨rfl,ready.sent⟩,labelled (f := (· ++ [lit "Accept-Encoding"])) w.w.header w.encoding.text,own,accepted,ready.empty,rfl⟩
  have body := ready.body
  by_cases none' : w.buf = []
  · have shape : w.startEncoding codecs = opened := if_pos none'
    rw [none'] at body
    rw [shape,show p = {p with body := []} by rw [← body]]
    exact ⟨[],first⟩
  · have shape : w.startEncoding codecs = opened.encode codecs (.write w.buf) := if_neg none'
    rw [shape]
    exact ⟨_,first.encode (.write w.buf) ⟨ready.sent,rfl,body⟩⟩

section
variable (codecs : Coding → Codec UInt8)

theorem encode_frame (w : CompressWriter) (op : Op UInt8) :
    (w.encode codecs op).decided = w.decided ∧ (w.encode codecs op).brotliSlot = w.brotliSlot := by
  unfold CompressWriter.encode
  split <;> exact ⟨rfl,rfl⟩

theorem startEncoding_frame (w : CompressWriter) :
    (w.startEncoding codecs).decided = w.decided ∧ (w.startEncoding codecs).brotliSlot = w.brotliSlot := by
  unfold CompressWriter.startEncoding
  dsimp only
  split
  · exact ⟨rfl,rfl⟩
  · exact encode_frame codecs _ _

theorem Ready.settle (ready : Ready accept w p) (decided : w.decided)
    (fit : w.should → Header.get w.w.header (lit "Content-Encoding") = [] ∧ accepts accept w.encoding.text) :
    Settled codecs accept {(if w.should then w.startEncoding codecs else w.startPlain) with buf := []} p ∧
      (if w.should then w.startEncoding codecs else w.startPlain).brotliSlot = w.brotliSlot := by
  cases should : w.should with
  | false => exact ⟨⟨decided,.inl (ready.plain should)⟩,rfl⟩
  | true =>
    obtain ⟨plain,accepted⟩ := fit should
    obtain ⟨still,slot⟩ := startEncoding_frame codecs w
    exact ⟨⟨still.trans decided,.inr (ready.encoding should plain accepted)⟩,slot⟩

end

theorem Ready.same (ready : Ready accept w p) (client : w'.w = w.w) (status : w'.status = w.status) (buf : w'.buf = w.buf) :
    Ready accept w' p := by
  obtain ⟨unsent,empty,final,sent,own,body,fit⟩ := ready
  rw [← client] at unsent empty own
  exact ⟨unsent,empty,status ▸ final,sent,own,body.trans buf.symm,fit⟩

section
variable {u : Tables} {w : CompressWriter}

theorem shouldCompress_plain (should : w.shouldCompress u) : Header.get w.w.header (lit "Content-Encoding") = [] := by
  by_contra filled
  simp [CompressWriter.shouldCompress,filled] at should

theorem decide_late (decided : w.decided) (g : Gate) : w.decide codecs u g = (w,g) := by
  rw [CompressWriter.decide,if_pos decided]

theorem Ready.decide (ready : Ready accept w p) (undecided : w.decided = false) (slotless : w.brotliSlot = false)
    (offered : Offered accept w) (g : Gate) : Leads (Settled codecs accept · p) w g (w.decide codecs u g) := by
  let now : CompressWriter := {w with decided := true}
  let claimed := if now.shouldCompress u then now.claimEncoder g else (false,now,g)
  have shape : w.decide codecs u g = ({(if claimed.1 then {claimed.2.1 with should := claimed.1}.startEncoding codecs
      else {claimed.2.1 with should := claimed.1}.startPlain) with buf := []},claimed.2.2) := by
    rw [CompressWriter.decide,if_neg (by simp [undecided])]
  have claims : Unmoved now claimed.2.1 ∧
      (claimed.1 → Header.get now.w.header (lit "Content-Encoding") = [] ∧ accepts accept claimed.2.1.encoding.text) ∧
      Takes w.brotliSlot claimed.2.1.brotliSlot g claimed.2.2 := by
    by_cases wanted : now.shouldCompress u
    · have chosen : claimed = now.claimEncoder g := if_pos wanted
      obtain ⟨same,accepted,takes⟩ := claimEncoder_spec now g slotless {offered with}
      rw [chosen]
      exact ⟨same,fun took => ⟨shouldCompress_plain wanted,accepted took⟩,takes⟩
    · have chosen : claimed = (false,now,g) := if_neg wanted
      rw [chosen]
      exact ⟨⟨rfl,rfl,rfl,rfl⟩,nofun,.refl _ _⟩
  obtain ⟨same,fit,takes⟩ := claims
  have held : Ready accept {claimed.2.1 with should := claimed.1} p :=
    ready.same same.client same.status same.buf
  obtain ⟨settled,slot⟩ := held.settle codecs same.decided fun took =>
    ⟨(congrArg (fun c => Header.get c.header (lit "Content-Encoding")) same.client).trans (fit took).1,(fit took).2⟩
  rw [shape]
  exact ⟨settled,slot ▸ takes⟩

structure Open (accept : List GoString) (w : CompressWriter) (p : Client) : Prop where
  going : w.wroteHeader = false ∧ w.decided = false ∧ w.brotliSlot = false
  client : w.w = p
  unsent : p.sent = none
  empty : p.body = [] ∧ w.buf = []
  status : w.status = 200
  fit : Fit accept (p.header codingKey)
  offered : Offered accept w

structure Held (accept : List GoString) (w : CompressWriter) (p : Client) : Prop where
  going : w.wroteHeader ∧ w.decided = false ∧ w.brotliSlot = false
  ready : Ready accept w p
  offered : Offered accept w

section
variable (codecs : Coding → Codec UInt8) (accept : List GoString)

abbrev Begun (p : Client) (w : CompressWriter) : Prop :=
  Held accept w p ∨ Settled codecs accept w p
def Related (w : CompressWriter) (p : Client) : Prop :=
  Open accept w p ∨ Held accept w p ∨ Settled codecs accept w p

end

theorem labels_same (settled : p.sent.isSome) (same : p'.sent = p.sent) : labels p' = labels p := by
  obtain ⟨line,sent⟩ := isSome_iff_exists.mp settled
  simp only [labels,same,sent,elim_some]

theorem Settled.next (settled : Settled codecs accept w p) (decided : w'.decided)
    (core : w'.core = {w with w := c'}) (client : c'.sent = w.w.sent ∧ c'.body = w.w.body)
    (plain : p'.sent = p.sent ∧ p'.body = p.body) : Settled codecs accept w' p' := by
  refine ⟨decided,?_⟩
  rw [core]
  rcases settled.2 with passing | ⟨ops,coding⟩
  · have own := labels_same passing.sent.2 plain.1
    refine .inl ⟨passing.should,⟨client.1 ▸ passing.sent.1,plain.1 ▸ passing.sent.2⟩,?_,?_,own ▸ passing.fit⟩
    · exact (labels_same passing.sent.1 client.1).trans (passing.own.trans own.symm)
    · exact client.2.trans (passing.body.trans plain.2.symm)
  · refine .inr ⟨ops,coding.should,coding.compressor,⟨client.1 ▸ coding.sent.1,plain.1 ▸ coding.sent.2⟩,?_,?_,coding.accepted,?_,?_⟩
    · exact (labels_same coding.sent.1 client.1).trans coding.label
    · rw [labels_same coding.sent.2 plain.1]; exact coding.own
    · exact client.2.trans coding.coded
    · exact plain.2.trans coding.body

theorem Settled.sent (settled : Settled codecs accept w p) : w.w.sent.isSome ∧ p.sent.isSome := by
  rcases settled.2 with passing | ⟨_,coding⟩
  · exact passing.sent
  · exact coding.sent

theorem Open.ready (opened : Open accept w p) (final : informational code = false) (client : w'.w = w.w) (status : w'.status = code)
    (buf : w'.buf = w.buf) : Ready accept w' (p.writeHeader code) := by
  have sent := writeHeader_final opened.unsent final
  have below : w'.w = p := client.trans opened.client
  rw [sent]
  refine ⟨below ▸ opened.unsent,below ▸ opened.empty.1,status ▸ final,rfl,?_,?_,opened.fit⟩
  · rw [below]; rfl
  · rw [buf,opened.empty.2]; exact opened.empty.1

theorem Open.decide (opened : Open accept w p) (final : informational code = false) (g : Gate) (client : w'.w = w.w)
    (status : w'.status = code) (buf : w'.buf = w.buf) (undecided : w'.decided = false) (slotless : w'.brotliSlot = false)
    (offered : Offered accept w') : Leads (Begun codecs accept (p.writeHeader code)) w' g (w'.decide codecs u g) :=
  ((opened.ready final client status buf).decide undecided slotless offered g).imp_left .inr

theorem Open.writeHeader (opened : Open accept w p) (final : 200 ≤ code) (g : Gate) :
    Leads (Begun codecs accept (p.writeHeader code)) w g (w.writeHeader codecs u code g) := by
  have final' : informational code = false := by simp [informational,Nat.not_lt.mpr final]
  obtain ⟨unwritten,undecided,slotless⟩ := opened.going
  have offered := opened.offered
  unfold CompressWriter.writeHeader
  rw [if_neg (Nat.not_lt.mpr final),if_neg (by simp [unwritten])]
  dsimp only
  split
  · exact opened.decide final' g rfl rfl rfl undecided slotless {offered with}
  · split
    · exact opened.decide final' g rfl rfl rfl undecided slotless {offered with}
    · exact ⟨.inl ⟨⟨rfl,undecided,slotless⟩,opened.ready final' rfl rfl rfl,{offered with}⟩,.refl _ _⟩

theorem Settled.take (settled : Settled codecs accept w p) (b : GoString) (g : Gate) :
    Leads (Settled codecs accept · (p.write b)) w g (w.take codecs u b g) := by
  unfold CompressWriter.take
  rw [if_pos settled.1]
  have wrote := write_late settled.sent.2 b
  rcases settled.2 with passing | ⟨ops,coding⟩
  · have should : w.should = false := passing.should
    rw [if_neg (by simp [should])]
    refine ⟨⟨settled.1,.inl ?_⟩,.refl _ _⟩
    have sent : w.w.write b = {w.w with body := w.w.body ++ b} := write_late settled.sent.1 b
    have body : w.w.body = p.body := passing.body
    have core : {w with w := w.w.write b}.core = {w with w := {w.w with body := w.w.body ++ b}} := by
      simp only [CompressWriter.core,sent]
    rw [wrote]
    rw [core]
    exact {passing with should := should,body := by rw [body]}
  · have should : w.should := coding.should
    rw [if_pos should]
    have frame := encode_frame codecs w (.write b)
    refine ⟨⟨frame.1.trans settled.1,.inr ⟨_,coding.encode (.write b) ⟨?_,?_,?_⟩⟩⟩,?_⟩
    · rw [wrote]; exact settled.sent.2
    · exact labels_same settled.sent.2 (by rw [wrote])
    · rw [wrote]; rfl
    · rw [frame.2]; exact .refl _ _

theorem take_related (going : Begun codecs accept p w) (b : GoString) (g : Gate) :
    Leads (Begun codecs accept (p.write b)) w g (w.take codecs u b g) := by
  rcases going with held | settled
  · obtain ⟨written,undecided,slotless⟩ := held.going
    have wrote := write_late held.ready.sent b
    have more : Ready accept {w with buf := w.buf ++ b} (p.write b) := by
      rw [wrote]
      obtain ⟨unsent,empty,final,sent,own,body,fit⟩ := held.ready
      have same : labels {p with body := p.body ++ b} = labels p := rfl
      exact ⟨unsent,empty,final,sent,same.trans own,by rw [body],same ▸ fit⟩
    unfold CompressWriter.take
    rw [if_neg (by simp [undecided])]
    dsimp only
    split
    · exact (more.decide undecided slotless {held.offered with} g).imp_left .inr
    · exact ⟨.inl ⟨⟨written,undecided,slotless⟩,more,{held.offered with}⟩,.refl _ _⟩
  · exact (settled.take b g).imp_left .inr

theorem Settled.decide (settled : Settled codecs accept w p) (g : Gate) {w' : CompressWriter} (decided : w'.decided)
    (core : w'.core = w.core) (slot : w'.brotliSlot = w.brotliSlot) : Leads (Settled codecs accept · p) w g (w'.decide codecs u g) := by
  rw [decide_late decided]
  exact ⟨settled.next decided core ⟨rfl,rfl⟩ ⟨rfl,rfl⟩,slot ▸ .refl _ _⟩

theorem Settled.writeHeader (settled : Settled codecs accept w p) (code : Nat) (g : Gate) :
    Leads (Settled codecs accept · (p.writeHeader code)) w g (w.writeHeader codecs u code g) := by
  rw [writeHeader_late settled.sent.2]
  unfold CompressWriter.writeHeader
  split
  · rw [writeHeader_late settled.sent.1]; exact ⟨settled,.refl _ _⟩
  split
  · exact ⟨settled,.refl _ _⟩
  dsimp only
  split
  · exact settled.decide g settled.1 rfl rfl
  · split
    · exact settled.decide g settled.1 rfl rfl
    · exact ⟨settled.next settled.1 rfl ⟨rfl,rfl⟩ ⟨rfl,rfl⟩,.refl _ _⟩

section
variable (related : Related codecs accept w p)
include related

theorem writeHeader_related (switching : code ≠ 101) (g : Gate) :
    Leads (Related codecs accept · (p.writeHeader code)) w g (w.writeHeader codecs u code g) := by
  rcases related with opened | held | settled
  · by_cases early : code < 200
    · have hint := writeHeader_hint opened.unsent (show informational code by simp [informational,early,switching])
      rw [CompressWriter.writeHeader,if_pos early,hint]
      refine ⟨.inl {opened with client := ?_,offered := {opened.offered with}},.refl _ _⟩
      rw [opened.client]
      exact hint
    · exact (opened.writeHeader (Nat.not_lt.mp early) g).imp_left .inr
  · rw [writeHeader_late held.ready.sent]
    unfold CompressWriter.writeHeader
    by_cases early : code < 200
    · have hint := writeHeader_hint held.ready.unsent (show informational code by simp [informational,early,switching])
      rw [if_pos early,hint]
      obtain ⟨unsent,empty,final,sent,own,body,fit⟩ := held.ready
      exact ⟨.inr (.inl ⟨held.going,⟨unsent,empty,final,sent,own,body,fit⟩,{held.offered with}⟩),.refl _ _⟩
    · rw [if_neg early,if_pos held.going.1]; exact ⟨.inr (.inl held),.refl _ _⟩
  · exact (settled.writeHeader code g).imp_left fun still => .inr (.inr still)

theorem opened_related (g : Gate) :
    Leads (Begun codecs accept (p.writeHeader 200)) w g (if w.wroteHeader then (w,g) else w.writeHeader codecs u 200 g) := by
  rcases related with opened | held | settled
  · rw [if_neg (by simp [opened.going.1])]; exact opened.writeHeader le_rfl g
  · rw [if_pos held.going.1,writeHeader_late held.ready.sent]; exact ⟨.inl held,.refl _ _⟩
  · by_cases wrote : w.wroteHeader
    · rw [if_pos wrote,writeHeader_late settled.sent.2]; exact ⟨.inr settled,.refl _ _⟩
    · rw [if_neg wrote]; exact (settled.writeHeader 200 g).imp_left .inr

theorem write_related (b : GoString) (g : Gate) :
    Leads (Related codecs accept · (p.write b)) w g (w.write codecs u b g) := by
  obtain ⟨going,takes⟩ := opened_related (u := u) related g
  obtain ⟨after,more⟩ := take_related (u := u) going b (if w.wroteHeader then (w,g) else w.writeHeader codecs u 200 g).2
  rw [write_opened p]
  exact ⟨.inr after,takes.trans more⟩

end

theorem Settled.flush (settled : Settled codecs accept w p) :
    let flushed := if w.should then w.encode codecs .flush else w
    Settled codecs accept {flushed with w := flushed.w.flush} p ∧ flushed.brotliSlot = w.brotliSlot := by
  rcases settled.2 with passing | ⟨ops,coding⟩
  · have should : w.should = false := passing.should
    rw [if_neg (by simp [should])]
    refine ⟨settled.next settled.1 rfl ?_ ⟨rfl,rfl⟩,rfl⟩
    rw [Client.flush,writeHeader_late settled.sent.1]
    exact ⟨rfl,rfl⟩
  · have frame := encode_frame codecs w .flush
    have next := coding.encode .flush ⟨coding.sent.2,rfl,(List.append_nil _).symm⟩
    rw [if_pos (show w.should from coding.should)]
    have after : Settled codecs accept (w.encode codecs .flush) p := ⟨frame.1.trans settled.1,.inr ⟨_,next⟩⟩
    refine ⟨after.next after.1 rfl ?_ ⟨rfl,rfl⟩,frame.2⟩
    rw [Client.flush,writeHeader_late after.sent.1]
    exact ⟨rfl,rfl⟩

theorem flush_related (related : Related codecs accept w p) (g : Gate) :
    Leads (Related codecs accept · p.flush) w g (w.flush codecs u g) := by
  have decided : Leads (Settled codecs accept · p.flush) w g (w.decide codecs u g) := by
    rcases related with opened | held | settled
    · exact (opened.ready ok_final rfl opened.status rfl).decide opened.going.2.1 opened.going.2.2 opened.offered g
    · rw [Client.flush,writeHeader_late held.ready.sent]
      exact held.ready.decide held.going.2.1 held.going.2.2 held.offered g
    · rw [Client.flush,writeHeader_late settled.sent.2,decide_late settled.1]; exact ⟨settled,.refl _ _⟩
  obtain ⟨flushed,slot⟩ := decided.1.flush
  refine ⟨.inr (.inr flushed),?_⟩
  exact slot ▸ decided.2

theorem edit_label (h : Header) (name : GoString) (f : List GoString → List GoString) :
    Header.edit h name f codingKey = if canonicalMIMEHeaderKey name = codingKey then f (h codingKey) else h codingKey := by
  unfold Header.edit
  split
  · rename_i same; rw [same,update_self]
  · rename_i other; rw [update_of_ne (Ne.symm other)]

theorem edit_related (related : Related codecs accept w p)
    (careful : canonicalMIMEHeaderKey name = codingKey → (Writer.compressed w).Editable accept f) :
    Related codecs accept {w with w := w.w.edit name f} (p.edit name f) := by
  rcases related with opened | held | settled
  · refine .inl {opened with client := by rw [opened.client],fit := ?_,offered := {opened.offered with}}
    have label := edit_label p.header name f
    rw [Client.edit]
    dsimp only
    rw [label]
    split
    · rename_i own
      have editable := careful own opened.going.2.1
      rwa [if_neg (by simp [opened.going.1]),opened.client] at editable
    · exact opened.fit
  · obtain ⟨unsent,empty,final,sent,own,body,fit⟩ := held.ready
    have label : (w.w.edit name f).header codingKey = w.w.header codingKey := by
      refine (edit_label w.w.header name f).trans ?_
      split
      · rename_i own
        have editable := careful own held.going.2.1
        rwa [if_pos held.going.1] at editable
      · rfl
    have same : labels (p.edit name f) = labels p := labels_same sent rfl
    exact .inr (.inl ⟨held.going,⟨unsent,empty,final,sent,same.trans (own.trans label.symm),body,same ▸ fit⟩,
      {held.offered with}⟩)
  · exact .inr (.inr (settled.next settled.1 rfl ⟨rfl,rfl⟩ ⟨rfl,rfl⟩))

structure Closed (codecs : Coding → Codec UInt8) (accept : List GoString) (slot : Bool) (g g' : Gate) (c p : Client) : Prop where
  accepted : Acceptable accept (labels c)
  delivered : Delivered codecs c p
  acquired : g'.acquired = g.acquired
  released : g'.released = g.released + slot.toNat
  capacity : g'.capacity = g.capacity

theorem coding_text : ∀ coding : Coding, codings [coding.text] = [coding.text]
  | .gzip => by decide
  | .br => by decide

def Reaches (codecs : Coding → Codec UInt8) (accept : List GoString) (c p : Client) : Prop :=
  Acceptable accept (labels c.finish) ∧ Delivered codecs c.finish p.finish

theorem Passing.finish {w : Core} (codecs : Coding → Codec UInt8) (passing : Passing accept w p) : Reaches codecs accept w.w p := by
  unfold Reaches
  rw [Client.finish,Client.finish,writeHeader_late passing.sent.1,writeHeader_late passing.sent.2]
  exact ⟨passing.own ▸ passing.fit.1,none,by simp [passing.own],congrArg some passing.body⟩

theorem Encoding.finish {w : Core} (sound : ∀ coding, (codecs coding).Sound) (coding : Encoding codecs accept w p ops) :
    Reaches codecs accept (w.w.write ((codecs w.encoding).close ops)) p := by
  generalize wrote : w.w.write ((codecs w.encoding).close ops) = c
  rw [write_late coding.sent.1] at wrote
  have sent : c.sent = w.w.sent := by rw [← wrote]
  have label : labels c = [w.encoding.text] := (labels_same coding.sent.1 sent).trans coding.label
  rw [Reaches,Client.finish,Client.finish,writeHeader_late (sent ▸ coding.sent.1),writeHeader_late coding.sent.2]
  constructor
  · intro name mem
    rw [label,coding_text,List.mem_singleton] at mem
    exact .inr (mem ▸ coding.accepted)
  · refine ⟨some w.encoding,?_,?_⟩
    · rw [label,coding_text,coding.own]; rfl
    · rw [← wrote,coding.body]; exact coding.coded ▸ sound w.encoding ops

theorem Ready.undersized (codecs : Coding → Codec UInt8) (u : Tables) (ready : Ready accept w p) (undecided : w.decided = false) (undersized : w.undersized) (g : Gate) :
    Passing accept (w.decide codecs u g).1.core p ∧ (w.decide codecs u g).2 = g := by
  have unfit : {w with decided := true}.shouldCompress u = false := by simp [CompressWriter.shouldCompress,undersized]
  have held : Ready accept {w with decided := true,should := false} p := ready.same rfl rfl rfl
  have shape : w.decide codecs u g = ({{w with decided := true,should := false}.startPlain with buf := []},g) := by
    simp [CompressWriter.decide,undecided,unfit]
  rw [shape]
  exact ⟨held.plain rfl,rfl⟩

theorem closeEncoder_plain (should : w.should = false) : w.closeEncoder codecs = w := by
  simp only [CompressWriter.closeEncoder,should]

theorem Ready.close (ready : Ready accept w p) (undecided : w.decided = false) (slotless : w.brotliSlot = false) (g : Gate) :
    Closed codecs accept w.brotliSlot g (w.close codecs u g).2 (w.close codecs u g).1.w.finish p.finish := by
  have last : Ready accept {w with brotliSlot := false,undersized := true} p := ready.same rfl rfl rfl
  obtain ⟨passing,gate⟩ := last.undersized codecs u undecided rfl g
  obtain ⟨accepted,delivered⟩ := passing.finish codecs
  have shape : w.close codecs u g = {w with brotliSlot := false,undersized := true}.decide codecs u g := by
    rw [CompressWriter.close,if_neg (by simp [undecided]),if_neg (by simp [slotless]),closeEncoder_plain passing.should]
  rw [shape,gate]
  exact ⟨accepted,delivered,rfl,by simp [slotless],rfl⟩

theorem close_spec (sound : ∀ coding, (codecs coding).Sound) (related : Related codecs accept w p) (g : Gate) :
    Closed codecs accept w.brotliSlot g (w.close codecs u g).2 (w.close codecs u g).1.w.finish p.finish := by
  rcases related with opened | held | settled
  · have ready : Ready accept w (p.writeHeader 200) := opened.ready ok_final rfl opened.status rfl
    have again : p.finish = (p.writeHeader 200).finish := (writeHeader_late ready.sent 200).symm
    rw [again]
    exact ready.close opened.going.2.1 opened.going.2.2 g
  · exact held.ready.close held.going.2.1 held.going.2.2 g
  have shape : w.close codecs u g = ({w with brotliSlot := false}.closeEncoder codecs,if w.brotliSlot then g.release else g) := by
    rw [CompressWriter.close,if_pos settled.1]
  have gate : (if w.brotliSlot then g.release else g).acquired = g.acquired ∧
      (if w.brotliSlot then g.release else g).released = g.released + w.brotliSlot.toNat ∧
      (if w.brotliSlot then g.release else g).capacity = g.capacity := by
    cases w.brotliSlot <;> exact ⟨rfl,rfl,rfl⟩
  rw [shape]
  suffices reaches : Reaches codecs accept ({w with brotliSlot := false}.closeEncoder codecs).w p from
    ⟨reaches.1,reaches.2,gate.1,gate.2.1,gate.2.2⟩
  rcases settled.2 with passing | ⟨ops,coding⟩
  · rw [closeEncoder_plain (w := {w with brotliSlot := false}) passing.should]
    exact passing.finish codecs
  have closed : ({w with brotliSlot := false}.closeEncoder codecs).w = w.w.write ((codecs w.encoding).close ops) := by
    simp only [CompressWriter.closeEncoder,show w.should from coding.should,show w.compressor = some ops from coding.compressor]
  rw [closed]
  have reaches := coding.finish sound
  exact reaches

theorem call_related (related : Related codecs accept w p)
    (edits : ∀ name f, made = .edit name f → canonicalMIMEHeaderKey name = codingKey → (Writer.compressed w).Editable accept f)
    (codes : ∀ code, made = .writeHeader code → code ≠ 101) (g : Gate) :
    Leads (Related codecs accept · (p.call made)) w g (w.call codecs u made g) := by
  cases made with
  | edit name f => exact ⟨edit_related related (edits name f rfl),.refl _ _⟩
  | writeHeader code => exact writeHeader_related related (codes code rfl) g
  | write b => exact write_related related b g
  | flush => exact flush_related related g

end

theorem labels_writeHeader (c : Client) (code : Nat) : labels (c.writeHeader code) = labels c := by
  unfold Client.writeHeader
  split
  · rfl
  rename_i unsent
  have unsent : c.sent = none := not_isSome_iff_eq_none.mp unsent
  split
  · rfl
  · simp only [labels,unsent,Option.elim]

theorem labels_call (c : Client) (kept : Fit accept (labels c))
    (edits : ∀ name f, made = .edit name f → canonicalMIMEHeaderKey name = codingKey → (Writer.direct c).Editable accept f) :
    Fit accept (labels (c.call made)) := by
  cases made with
  | edit name f =>
    cases sent : c.sent with
    | some line =>
      rw [Client.call,labels_same (by rw [sent]; rfl) (show (c.edit name f).sent = c.sent from rfl)]
      exact kept
    | none =>
      have label : labels (c.edit name f) = Header.edit c.header name f codingKey := by simp only [labels,Client.edit,sent,Option.elim]
      rw [Client.call,label,edit_label]
      split
      · rename_i own; exact edits name f rfl own sent
      · simpa only [labels,sent,Option.elim] using kept
  | writeHeader code => exact (labels_writeHeader c code).symm ▸ kept
  | write b | flush => exact (labels_writeHeader c 200).symm ▸ kept

end

theorem select_accepted (negotiable : Negotiable algorithm accept)
    (chosen : selectCompressionEncoding (accept.headD []) algorithm = some coding) :
    accepts accept coding.text ∧ (coding = .br → contains (accept.headD []) (lit "gzip") → accepts accept (lit "gzip")) := by
  obtain ⟨br,gzip⟩ := negotiable
  unfold selectCompressionEncoding at chosen
  cases algorithm with
  | gzip =>
    obtain ⟨named,⟨⟩⟩ := ite_none_right_eq_some.mp chosen
    exact ⟨gzip named nofun,nofun⟩
  | br =>
    obtain ⟨named,⟨⟩⟩ := ite_none_right_eq_some.mp chosen
    exact ⟨br nofun named,fun _ also => gzip also fun _ => named⟩
  | auto =>
    dsimp only at chosen
    split at chosen
    · rename_i named
      cases chosen
      exact ⟨br nofun named,fun _ also => gzip also nofun⟩
    · obtain ⟨named,⟨⟩⟩ := ite_none_right_eq_some.mp chosen; exact ⟨gzip named nofun,nofun⟩

theorem compress_opens (negotiable : Negotiable (normalizeCompressionAlgorithm u cfg.algorithm) (acceptLines r))
    (fit : Fit (acceptLines r) (outer codingKey)) (given : compressWithConfig u cfg r (Client.new outer) = some w) :
    Open (acceptLines r) w (Client.new outer) := by
  unfold compressWithConfig at given
  dsimp only at given
  split at given
  · cases given
  obtain ⟨coding,chosen,given⟩ := bind_eq_some_iff.mp given
  obtain ⟨accepted,fallback⟩ := select_accepted negotiable chosen
  split at given
  · cases given
  · cases given; exact ⟨⟨rfl,rfl,rfl⟩,rfl,rfl,⟨rfl,rfl⟩,rfl,fit,accepted,fallback⟩

end Gateon.Traffic.Compress
