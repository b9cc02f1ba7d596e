import Gateon.Go.Trim
import Mathlib.Data.List.Dedup
import Mathlib.Data.List.Sort
import Gateon.Lib.Transition

namespace Gateon.Go

def isTokenByte (b : UInt8) : Bool := isAlnum b || (lit "!#$%&'*+-.^_`|~").contains b

def titleCase : Bool → GoString → GoString
  | _,[] => []
  | upper,b :: t => (if upper then upperByte b else lowerByte b) :: titleCase (b == byte '-') t

def canonicalMIMEHeaderKey (s : GoString) : GoString := if s.all isTokenByte then titleCase true s else s

-- http.Header: the values under each key, none where there is no entry.
abbrev Header := GoString → List GoString

section
variable (h : Header)

def Header.values (name : GoString) : List GoString := h (canonicalMIMEHeaderKey name)
def Header.get (name : GoString) : GoString := (Header.values h name).headD []
def Header.set (name value : GoString) : Header := Function.update h (canonicalMIMEHeaderKey name) [value]
def Header.del (name : GoString) : Header := Function.update h (canonicalMIMEHeaderKey name) []
def Header.ofLines (lines : List (GoString × GoString)) : Header := fun name =>
  (lines.filter fun line => canonicalMIMEHeaderKey line.1 == name).map Prod.snd

theorem set_apply (name value key : GoString) :
    Header.set h name value key = if key = canonicalMIMEHeaderKey name then [value] else h key := by
  rw [Header.set,Function.update_apply]

theorem del_apply (name key : GoString) :
    Header.del h name key = if key = canonicalMIMEHeaderKey name then [] else h key := by
  rw [Header.del,Function.update_apply]

end

theorem dels_apply (names : List GoString) (h : Header) (key : GoString) :
    names.foldl Header.del h key = if key ∈ names.map canonicalMIMEHeaderKey then [] else h key := by
  induction names generalizing h with
  | nil => rfl
  | cons name names ih =>
    rw [List.foldl_cons,ih,del_apply]
    by_cases first : key = canonicalMIMEHeaderKey name <;> simp [first]

def validCookieValueByte (b : UInt8) : Bool := 0x20 ≤ b && b < 0x7F && b != byte '"' && b != byte ';' && b != byte '\\'

def parseCookieValue (raw : GoString) : Option GoString :=
  let quoted := raw.length > 1 && raw.head? == some (byte '"') && raw.getLast? == some (byte '"')
  let value := if quoted then raw.tail.dropLast else raw
  if value.all validCookieValueByte then some value else none

def readCookie (part : GoString) : Option (GoString × GoString) :=
  let part := trimString part
  if part = [] then none
  else
    let pieces := cut part (byte '=')
    let name := trimString pieces.1
    if name ≠ [] && name.all isTokenByte then (parseCookieValue pieces.2.1).map (name,·) else none

def readCookies (h : Header) : List (GoString × GoString) :=
  (h (lit "Cookie")).flatMap fun line => (split (trimString line) (byte ';')).filterMap readCookie
def cookie (h : Header) (name : GoString) : Option GoString :=
  ((readCookies h).find? fun c => c.1 == name).map Prod.snd

def unhex (b : UInt8) : Option UInt8 :=
  if 48 ≤ b && b ≤ 57 then some (b-48)
  else if 97 ≤ b && b ≤ 102 then some (b-87)
  else if 65 ≤ b && b ≤ 70 then some (b-55)
  else none

def queryUnescape : GoString → Option GoString
  | [] => some []
  | b :: t =>
    if b = byte '%' then
      match t with
      | hi :: lo :: rest => (unhex hi).bind fun h => (unhex lo).bind fun l => (queryUnescape rest).map ((h * 16 + l) :: ·)
      | _ => none
    else if b = byte '+' then (queryUnescape t).map (byte ' ' :: ·)
    else (queryUnescape t).map (b :: ·)

def queryPair (text : GoString) : Option (GoString × GoString) :=
  if contains text [byte ';'] || text == [] then none
  else
    let pieces := cut text (byte '=')
    (queryUnescape pieces.1).bind fun key => (queryUnescape pieces.2.1).map (key,·)

def parseQuery (query : GoString) : List (GoString × GoString) := (split query (byte '&')).filterMap queryPair
def queryGet (query name : GoString) : GoString := (((parseQuery query).find? fun pair => pair.1 == name).map Prod.snd).getD []

theorem split_trimmed (mem : part ∈ split (trimString s) c) (solid : isASCIISpace c = false) :
    ∃ pad tail, pad ++ part ++ tail ∈ split s c ∧ (∀ b ∈ pad, isASCIISpace b) ∧ ∀ b ∈ tail, isASCIISpace b := by
  obtain ⟨left,right,whole,before,after⟩ := trimString_split s
  obtain ⟨u,v,core,free,starts,ends⟩ := mem_split.mp mem
  have absent : ∀ list : GoString, (∀ b ∈ list, isASCIISpace b) → c ∉ list := by
    intro list blank held
    cases solid.symm.trans (blank c held)
  -- The first part takes the blanks before the text, the last those after it.
  have front : ∃ pad u', left ++ u = u' ++ pad ∧ (∀ b ∈ pad, isASCIISpace b) ∧ (u' = [] ∨ ∃ u'', u' = u'' ++ [c]) := by
    rcases starts with first | ⟨u',last⟩
    · exact ⟨left,[],by simp [first],before,.inl rfl⟩
    · exact ⟨[],left ++ u,by simp,by simp,.inr ⟨left ++ u',by simp [last]⟩⟩
  have back : ∃ tail v', v ++ right = tail ++ v' ∧ (∀ b ∈ tail, isASCIISpace b) ∧ (v' = [] ∨ ∃ v'', v' = c :: v'') := by
    rcases ends with last | ⟨v',next⟩
    · exact ⟨right,[],by simp [last],after,.inl rfl⟩
    · exact ⟨[],v ++ right,by simp,by simp,.inr ⟨v' ++ right,by simp [next]⟩⟩
  obtain ⟨pad,u',joinLeft,blankLeft,startsAt⟩ := front
  obtain ⟨tail,v',joinRight,blankRight,endsAt⟩ := back
  refine ⟨pad,tail,mem_split.mpr ⟨u',v',?_,?_,startsAt,endsAt⟩,blankLeft,blankRight⟩
  · calc
      s = left ++ trimString s ++ right := whole
      _ = (left ++ u) ++ part ++ (v ++ right) := by rw [core]; simp
      _ = u' ++ (pad ++ part ++ tail) ++ v' := by rw [joinLeft,joinRight]; simp
  · simp [free,absent pad blankLeft,absent tail blankRight]

-- url.URL, of which path and query are changed on the way.
@[ext]
structure URL where
  path : GoString
  rawQuery : GoString
deriving DecidableEq

def upperHex (n : UInt8) : UInt8 := if n < 10 then 48 + n else 55 + n

def queryEscape (s : GoString) : GoString :=
  s.flatMap fun b =>
    if isAlnum b || (lit "-_.~").contains b then [b]
    else if b = byte ' ' then [byte '+']
    else [byte '%',upperHex (b / 16),upperHex (b % 16)]

def Values.set (pairs : List (GoString × GoString)) (key value : GoString) : List (GoString × GoString) :=
  (pairs.filter fun pair => pair.1 != key) ++ [(key,value)]

def Values.encode (pairs : List (GoString × GoString)) : GoString :=
  let keys := (pairs.map Prod.fst).dedup.insertionSort fun a b => compareStrings a b ≠ .gt
  let sorted := keys.flatMap fun key => pairs.filter fun pair => pair.1 == key
  join (sorted.map fun pair => queryEscape pair.1 ++ byte '=' :: queryEscape pair.2) [byte '&']

-- An edit changes the values under one name, as Set, Add and Del do.
inductive Call where
  | edit (name : GoString) (f : List GoString → List GoString)
  | writeHeader (code : Nat)
  | write (b : GoString)
  | flush

-- 101 is a final status.
def informational (code : Nat) : Bool := code < 200 && code != 101

theorem ok_final : informational 200 = false := rfl

def Header.edit (h : Header) (name : GoString) (f : List GoString → List GoString) : Header :=
  Function.update h (canonicalMIMEHeaderKey name) (f (h (canonicalMIMEHeaderKey name)))

-- What the server sends: informational responses, status and headers, body.
structure Client where
  header : Header
  hints : List (Nat × Header)
  sent : Option (Nat × Header)
  body : GoString

def Client.new (header : Header) : Client := ⟨header,[],none,[]⟩
namespace Client
variable (c : Client)

def edit (name : GoString) (f : List GoString → List GoString) : Client := {c with header := Header.edit c.header name f}

def writeHeader (code : Nat) : Client :=
  if c.sent.isSome then c
  else if informational code then {c with hints := c.hints ++ [(code,c.header)]}
  else {c with sent := some (code,c.header)}

def write (b : GoString) : Client :=
  let c := c.writeHeader 200
  {c with body := c.body ++ b}

def flush : Client := c.writeHeader 200
def finish : Client := c.writeHeader 200

def call : Call → Client
  | .edit name f => c.edit name f
  | .writeHeader code => c.writeHeader code
  | .write b => c.write b
  | .flush => c.flush

def result : Option (Nat × Header) × GoString := (c.finish.sent,c.body)

end Client

section
variable {c : Client}

theorem writeHeader_late (sent : c.sent.isSome) (code : Nat) : c.writeHeader code = c := by
  rw [Client.writeHeader,if_pos sent]

theorem writeHeader_final (unsent : c.sent = none) (final : informational code = false) :
    c.writeHeader code = {c with sent := some (code,c.header)} := by
  simp [Client.writeHeader,unsent,final]

theorem writeHeader_hint (unsent : c.sent = none) (hint : informational code) :
    c.writeHeader code = {c with hints := c.hints ++ [(code,c.header)]} := by
  simp [Client.writeHeader,unsent,hint]

-- A write sends the header first, if nothing has.
theorem write_opened (c : Client) (b : GoString) : c.write b = (c.writeHeader 200).write b := by
  have settled : (c.writeHeader 200).sent.isSome := by
    cases sent : c.sent with
    | none => rw [writeHeader_final sent rfl]; rfl
    | some line => rw [writeHeader_late (by simp [sent]),sent]; rfl
  rw [Client.write,Client.write,writeHeader_late settled]
theorem write_late (sent : c.sent.isSome) (b : GoString) : c.write b = {c with body := c.body ++ b} := by
  rw [Client.write,writeHeader_late sent]
theorem result_sent (sent : c.sent.isSome) : c.result = (c.sent,c.body) := by
  rw [Client.result,Client.finish,writeHeader_late sent]
theorem result_unsent (unsent : c.sent = none) : c.result = (some (200,c.header),c.body) := by
  rw [Client.result,Client.finish,writeHeader_final unsent rfl]

theorem finish_result (c : Client) : c.finish.result = c.result := by
  cases sent : c.sent with
  | none => rw [Client.finish,writeHeader_final sent rfl,result_sent rfl,result_unsent sent]
  | some line => rw [Client.finish,writeHeader_late (by simp [sent])]

-- Two writers that have sent the same headers and the same body so far.
structure Together (c p : Client) : Prop where
  sent : c.sent = p.sent
  settled : p.sent.isSome
  body : c.body = p.body

variable (together : Together c p)
include together

theorem Together.result : c.result = p.result := by
  rw [result_sent together.settled,result_sent (together.sent ▸ together.settled),together.sent,together.body]
section
variable (name : GoString) (f : List GoString → List GoString)

theorem Together.edit : Together c (p.edit name f) :=
  {together with}

theorem Together.edits : Together (c.edit name f) (p.edit name f) :=
  {together with}

end

theorem Together.write (b : GoString) : Together (c.write b) (p.write b) := by
  rw [write_late together.settled,write_late (together.sent ▸ together.settled)]
  exact {together with body := by rw [together.body]}

theorem Together.late (code code' : Nat) : Together (c.writeHeader code) (p.writeHeader code') := by
  rwa [writeHeader_late together.settled,writeHeader_late (together.sent ▸ together.settled)]
theorem Together.plain (code : Nat) : Together c (p.writeHeader code) := by
  rwa [writeHeader_late together.settled]

end

open Transition

-- `passes` tells whether the middleware meant to leave the response alone.
structure Wrapper where
  State : Type
  start : Header → State
  call : State → Call → State
  returns : State → Bool → State × Bool
  client : State → Client
  passes : State → Bool

inductive Handled where
  | call (made : Call)
  | returns (done : Bool)

structure Exchange (W : Wrapper) where
  outer : Header
  wrapped : W.State
  plain : Client
  returned : Bool

section
variable (W : Wrapper)

def Exchange.start (outer : Header) : Exchange W := ⟨outer,W.start outer,Client.new outer,false⟩

def Exchange.step (x : Exchange W) (e : Handled) : Option (Exchange W) :=
  if x.returned then none
  else some <| match e with
    | .call made => {x with wrapped := W.call x.wrapped made,plain := x.plain.call made}
    | .returns done =>
      let ended := W.returns x.wrapped done
      if ended.2 then {x with wrapped := ended.1,plain := Client.new x.outer}
      else {x with wrapped := ended.1,plain := x.plain.finish,returned := true}

variable {W}

def Exchange.Transparent (x : Exchange W) : Prop :=
  x.returned → W.passes x.wrapped → (W.client x.wrapped).result = x.plain.result
def Exchange.allowed (careful : W.State → Handled → Prop) (x : Exchange W) (e : Handled) : Prop := careful x.wrapped e

end

structure Simulation (W : Wrapper) (careful : W.State → Handled → Prop) where
  Related : Header → W.State → Client → Prop
  starts : ∀ outer, Related outer (W.start outer) (Client.new outer)
  calls : ∀ {outer s p made}, Related outer s p → careful s (.call made) → Related outer (W.call s made) (p.call made)
  ends : ∀ {outer s p done}, Related outer s p → careful s (.returns done) → (W.returns s done).2 = false →
    W.passes (W.returns s done).1 → (W.client (W.returns s done).1).result = p.result
  again : ∀ {outer s p done}, Related outer s p → careful s (.returns done) → (W.returns s done).2 →
    Related outer (W.returns s done).1 (Client.new outer)

theorem Simulation.transparent {W : Wrapper} {x : Exchange W} {careful : W.State → Handled → Prop} (sim : Simulation W careful)
    (path : Reached (Exchange.step W) (Exchange.allowed careful) (Exchange.start W outer) x) : x.Transparent := by
  let inv := fun x : Exchange W => (x.returned = false → sim.Related x.outer x.wrapped x.plain) ∧ x.Transparent
  suffices both : inv x from both.2
  refine reached_invariant inv ⟨fun _ => sim.starts outer,Bool.noConfusion⟩ ?_ path
  intro s e t kept meets ran
  obtain ⟨going,ran⟩ := Option.ite_none_left_eq_some.mp ran
  have related := kept.1 (Bool.eq_false_iff.mpr going)
  cases e with
  | call made =>
    cases ran
    exact ⟨fun _ => sim.calls related meets,fun returned => absurd returned going⟩
  | returns done =>
    dsimp only at ran
    split at ran
    · rename_i more
      cases ran
      exact ⟨fun _ => sim.again related meets more,fun returned => absurd returned going⟩
    · rename_i last
      cases ran
      refine ⟨nofun,fun _ passes => ?_⟩
      exact (sim.ends related meets (Bool.eq_false_iff.mpr last) passes).trans (finish_result s.plain).symm

end Gateon.Go
