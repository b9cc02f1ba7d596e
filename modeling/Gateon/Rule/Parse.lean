import Gateon.Config.Host
import Gateon.Go.Http

namespace Gateon.Rule
open Go Config List

-- Outside the repository: the Unicode tables and package regexp.
structure Lib (R : Type) where
  tables : Tables
  compile : GoString → Except GoString R
  matchString : R → GoString → Bool

-- For evaluation: ASCII tables, and regular expressions without operators.
def Lib.plain : Lib GoString where
  tables := .ascii
  compile p := .ok p
  matchString p s := contains s p

-- A bare entrypoint id counts only without a request state.
structure RequestState where
  entryPointID : GoString
  strippedHost : GoString
deriving DecidableEq

structure Request where
  method : GoString
  host : GoString
  path : GoString
  header : GoString → List GoString
  state : Option RequestState
  entryPointID : Option GoString

def Request.headerGet (r : Request) (canonical : GoString) : GoString :=
  (r.header canonical).headD []

-- The source keeps one record with a kind tag; each kind is a constructor here.
inductive Node (R : Type) where
  | opAnd (children : List (Node R))
  | opOr (children : List (Node R))
  | opNot (child : Node R)
  | host (value : GoString)
  | hostRegexp (value : GoString) (re : R)
  | path (value : GoString)
  | pathPrefix (value : GoString)
  | pathRegex (value : GoString) (re : R)
  | methods (methods : List GoString)
  | headers (value value2 : GoString)
  | l4

structure Expr (R : Type) where
  root : Node R

def methodOptions : GoString := lit "OPTIONS"
def requestMethodHeader : GoString := lit "Access-Control-Request-Method"

def matchMethod (lib : Lib R) (methods : List GoString) (r : Request) : Bool :=
  if methods.contains r.method then true
  else if r.method != methodOptions then false
  else
    let want := r.headerGet requestMethodHeader
    if want = [] then false else methods.any fun m => equalFold lib.tables m want

def matchHeader (value value2 : GoString) (r : Request) : Bool :=
  if (r.header value).head? = some value2 then true
  else r.method == methodOptions && r.headerGet requestMethodHeader != []

mutual
def eval (lib : Lib R) (r : Request) (host : GoString) : Node R → Bool
  | .opAnd children => evalAll lib r host children
  | .opOr children => evalAny lib r host children
  | .opNot child => !eval lib r host child
  | .host value => hostMatches lib.tables value host
  | .hostRegexp _ re => lib.matchString re host
  | .path value => r.path == value
  | .pathPrefix value => hasPrefix r.path value
  | .pathRegex _ re => lib.matchString re r.path
  | .methods methods => matchMethod lib methods r
  | .headers value value2 => matchHeader value value2 r
  | .l4 => true

def evalAll (lib : Lib R) (r : Request) (host : GoString) : List (Node R) → Bool
  | [] => true
  | n :: rest => if eval lib r host n then evalAll lib r host rest else false

def evalAny (lib : Lib R) (r : Request) (host : GoString) : List (Node R) → Bool
  | [] => false
  | n :: rest => if eval lib r host n then true else evalAny lib r host rest
end

def Expr.Match (e : Expr R) (lib : Lib R) (r : Request) (host : GoString) : Bool :=
  eval lib r host e.root

section
variable (lib : Lib R) (r : Request) (host : GoString)

theorem evalAll_exact (ns : List (Node R)) : evalAll lib r host ns = ns.all (eval lib r host) := by
  induction ns with
  | nil => rfl
  | cons n rest ih => cases h : eval lib r host n <;> simp [evalAll,h,ih]

theorem evalAny_exact (ns : List (Node R)) : evalAny lib r host ns = ns.any (eval lib r host) := by
  induction ns with
  | nil => rfl
  | cons n rest ih => cases h : eval lib r host n <;> simp [evalAny,h,ih]

end

mutual
def hasHost : Node R → Bool
  | .host _ => true
  | .hostRegexp _ _ => true
  | .opAnd children => hasHostAny children
  | .opOr children => decide (0 < children.length) && hasHostAll children
  | _ => false

def hasHostAny : List (Node R) → Bool
  | [] => false
  | n :: rest => hasHost n || hasHostAny rest

def hasHostAll : List (Node R) → Bool
  | [] => true
  | n :: rest => hasHost n && hasHostAll rest
end

def Expr.HasHost (e : Expr R) : Bool := hasHost e.root

mutual
def collectHeaders : Node R → (GoString → Option GoString) → GoString → Option GoString
  | .headers value value2,out => Function.update out value (some value2)
  | .opAnd children,out => collectAll children out
  | _,out => out

def collectAll : List (Node R) → (GoString → Option GoString) → GoString → Option GoString
  | [],out => out
  | n :: rest,out => collectAll rest (collectHeaders n out)
end

def Expr.RequiredHeaders (e : Expr R) : GoString → Option GoString := collectHeaders e.root fun _ => none

-- A host condition that stands under no negation, and that the host meets.
inductive HeldTo (lib : Lib R) (host : GoString) : Node R → Prop where
  | host : hostMatches lib.tables value host → HeldTo lib host (.host value)
  | hostRegexp : lib.matchString re host → HeldTo lib host (.hostRegexp value re)
  | opAnd : n ∈ children → HeldTo lib host n → HeldTo lib host (.opAnd children)
  | opOr : n ∈ children → HeldTo lib host n → HeldTo lib host (.opOr children)

def preflight (r : Request) : Bool := r.method == methodOptions && r.headerGet requestMethodHeader != []
def Carried (r : Request) (out : GoString → Option GoString) : Prop :=
  ∀ name value, out name = some value → (r.header name).head? = some value

section
variable {lib : Lib R} {r : Request} {host : GoString}

mutual
theorem hasHost_held : ∀ n : Node R, eval lib r host n → hasHost n → HeldTo lib host n
  | .host _,matched,_ => .host matched
  | .hostRegexp _ _,matched,_ => .hostRegexp matched
  | .opAnd children,matched,has => by
    obtain ⟨n,mem,held⟩ := hasHostAny_held children matched has
    exact .opAnd mem held
  | .opOr children,matched,has => by
    obtain ⟨n,mem,held⟩ := hasHostAll_held children matched (Bool.and_eq_true_iff.mp has).2
    exact .opOr mem held

theorem hasHostAny_held : ∀ ns : List (Node R), evalAll lib r host ns → hasHostAny ns →
    ∃ n ∈ ns, HeldTo lib host n
  | n :: rest,matched,has => by
    obtain ⟨first,later⟩ : eval lib r host n ∧ evalAll lib r host rest := by simpa [evalAll] using matched
    rcases Bool.or_eq_true_iff.mp has with here | there
    · exact ⟨n,mem_cons_self,hasHost_held n first here⟩
    · obtain ⟨m,mem,held⟩ := hasHostAny_held rest later there; exact ⟨m,mem_cons_of_mem _ mem,held⟩

theorem hasHostAll_held : ∀ ns : List (Node R), evalAny lib r host ns → hasHostAll ns →
    ∃ n ∈ ns, HeldTo lib host n
  | n :: rest,matched,has => by
    obtain ⟨here,there⟩ := Bool.and_eq_true_iff.mp has
    cases first : eval lib r host n with
    | true => exact ⟨n,mem_cons_self,hasHost_held n first here⟩
    | false =>
      obtain ⟨m,mem,held⟩ := hasHostAll_held rest (by simpa [evalAny,first] using matched) there
      exact ⟨m,mem_cons_of_mem _ mem,held⟩
end

mutual
theorem collectHeaders_carried (plain : preflight r = false) :
    ∀ (n : Node R) out, eval lib r host n → Carried r out → Carried r (collectHeaders n out)
  | .headers name value,out,matched,carried => by
    have first : (r.header name).head? = some value := by
      by_contra other
      cases plain.symm.trans ((if_neg other).symm.trans matched :)
    intro key wanted found
    by_cases same : key = name
    · subst key
      rw [collectHeaders,Function.update_self] at found
      cases found
      exact first
    · rw [collectHeaders,Function.update_of_ne same] at found; exact carried key wanted found
  | .opAnd children,out,matched,carried => collectAll_carried plain children out matched carried
  | .opOr _,_,_,carried => carried
  | .opNot _,_,_,carried => carried
  | .host _,_,_,carried => carried
  | .hostRegexp _ _,_,_,carried => carried
  | .path _,_,_,carried => carried
  | .pathPrefix _,_,_,carried => carried
  | .pathRegex _ _,_,_,carried => carried
  | .methods _,_,_,carried => carried
  | .l4,_,_,carried => carried

theorem collectAll_carried (plain : preflight r = false) :
    ∀ (ns : List (Node R)) out, evalAll lib r host ns → Carried r out → Carried r (collectAll ns out)
  | [],_,_,carried => carried
  | n :: rest,out,matched,carried => by
    obtain ⟨first,later⟩ : eval lib r host n ∧ evalAll lib r host rest := by simpa [evalAll] using matched
    exact collectAll_carried plain rest _ later (collectHeaders_carried plain n out first carried)
end
end

theorem facts_sound (e : Expr R) (lib : Lib R) (r : Request) (host : GoString) (matched : e.Match lib r host = true) :
    (e.HasHost = true → HeldTo lib host e.root) ∧
    (preflight r = false → ∀ name value, e.RequiredHeaders name = some value → (r.header name).head? = some value) :=
  ⟨hasHost_held e.root matched,fun plain => collectHeaders_carried plain e.root _ matched nofun⟩

def sampleRule : Expr GoString :=
  ⟨.opAnd [.opOr [.host (lit "a.com"),.hostRegexp (lit "b") (lit "b")],.headers (lit "X-A") (lit "1")]⟩
def sampleRequest : Request := ⟨lit "GET",lit "sub.b",lit "/",fun name => if name = lit "X-A" then [lit "1",lit "2"] else [],none,none⟩

theorem facts_sound_sample : sampleRule.HasHost = true ∧ HeldTo .plain (lit "sub.b") sampleRule.root ∧
    sampleRule.RequiredHeaders (lit "X-A") = some (lit "1") ∧ (sampleRequest.header (lit "X-A")).head? = some (lit "1") := by
  have facts := facts_sound sampleRule .plain sampleRequest (lit "sub.b") (by decide +kernel)
  have required : sampleRule.RequiredHeaders (lit "X-A") = some (lit "1") := by decide +kernel
  exact ⟨rfl,facts.1 rfl,required,facts.2 (by decide +kernel) _ _ required⟩

structure Value where
  text : GoString
  pos : Nat
deriving DecidableEq

def conditions : List GoString :=
  [lit "Host",lit "HostRegexp",lit "Path",lit "PathPrefix",lit "PathRegex",lit "Methods",lit "Headers",lit "L4"]
def isCondition (name : GoString) : Bool := conditions.contains name

-- One row of the Levenshtein table: `left` is cur[j-1], `diagonal` prev[j-1].
def distanceRow (c : UInt8) : GoString → List Nat → Nat → Nat → List Nat
  | b :: bs,up :: ups,diagonal,left =>
    let cost := if c = b then 0 else 1
    let here := min (min (up+1) (left+1)) (diagonal+cost)
    here :: distanceRow c bs ups up here
  | _,_,_,_ => []

def distanceRows (b : GoString) : GoString → Nat → List Nat → List Nat
  | [],_,prev => prev
  | c :: a,i,prev => distanceRows b a (i+1) (i :: distanceRow c b prev.tail (prev.headD 0) i)

def editDistance (a b : GoString) : Nat :=
  (distanceRows b a 1 (List.range (b.length+1))).getLastD 0

section
variable (u : Tables) (name : GoString)

def closestFrom : List GoString → GoString → Nat → GoString
  | [],best,_ => best
  | c :: rest,best,bestDist =>
    let d := editDistance (toLower u name) (toLower u c)
    if d < bestDist then closestFrom rest c d else closestFrom rest best bestDist

def closest : GoString := closestFrom u name conditions [] 3

def unknownCondition : GoString :=
  let msg := lit "unknown condition " ++ quote u name
  let s := closest u name
  let msg := if s ≠ [] then msg ++ lit " (did you mean " ++ s ++ lit "?)" else msg
  msg ++ lit "; the conditions are Host, HostRegexp, Path, PathPrefix, PathRegex, Methods and Headers"

end

structure BadValue where
  arg : Option Nat
  msg : GoString
deriving DecidableEq

def isIdentByte (c : UInt8) : Bool :=
  byte 'a' ≤ c && c ≤ byte 'z' || byte 'A' ≤ c && c ≤ byte 'Z' || byte '0' ≤ c && c ≤ byte '9' || c == byte '_'
def isToken (s : GoString) : Bool := s != [] && s.all fun c => isIdentByte c || (lit "!#$%&'*+-.^`|~").contains c

def single (name : GoString) (args : List Value) (want : GoString) : Except BadValue GoString :=
  match args with
  | [v] =>
    if v.text = [] then .error ⟨some 0,name ++ lit "'s value is empty; it needs " ++ want⟩ else .ok v.text
  | _ => .error ⟨none,name ++ lit " takes one value: " ++ want⟩

section
variable (lib : Lib R)

def regex (name : GoString) (args : List Value) : Except BadValue (GoString × R) :=
  match single name args (lit "a regular expression, such as " ++ name ++ lit "(`^/api/v[0-9]+/`)") with
  | .error bad => .error bad
  | .ok value =>
    match lib.compile value with
    | .error err => .error ⟨some 0,name ++ lit "'s regular expression does not compile: " ++ err⟩
    | .ok re => .ok (value,re)

def methodTexts (u : Tables) : Nat → List Value → Except BadValue (List GoString)
  | _,[] => .ok []
  | i,a :: rest =>
    if isToken a.text then (methodTexts u (i+1) rest).map (toUpper u a.text :: ·)
    else .error ⟨some i,quote u a.text ++ lit " is not a method; each method is its own value, such as Methods(`GET`, `POST`)"⟩

def buildMethods (args : List Value) : Except BadValue (Node R) :=
  if args = [] then .error ⟨none,lit "Methods takes one or more methods, such as Methods(`GET`, `POST`)"⟩
  else (methodTexts lib.tables 0 args).map .methods

def buildHeaders (args : List Value) : Except BadValue (Node R) :=
  match args with
  | [name,value] =>
    if isToken name.text then .ok (.headers (canonicalMIMEHeaderKey name.text) value.text)
    else .error ⟨some 0,quote lib.tables name.text ++ lit " is not a header name"⟩
  | _ => .error ⟨none,lit "Headers takes a header name and a value, such as Headers(`X-Env`, `prod`)"⟩

def build (name : GoString) (args : List Value) : Except BadValue (Node R) :=
  if name = lit "Host" then
    (single name args (lit "a host name, such as Host(`example.com`); for several hosts write Host(`a`) || Host(`b`)")).map .host
  else if name = lit "Path" then (single name args (lit "a path, such as Path(`/health`)")).map .path
  else if name = lit "PathPrefix" then
    (single name args (lit "a path prefix, such as PathPrefix(`/api`); PathPrefix(`/`) matches every path")).map .pathPrefix
  else if name = lit "HostRegexp" then (regex lib name args).map fun (value,re) => .hostRegexp value re
  else if name = lit "PathRegex" then (regex lib name args).map fun (value,re) => .pathRegex value re
  else if name = lit "Methods" then buildMethods lib args
  else if name = lit "Headers" then buildHeaders lib args
  else if args ≠ [] then .error ⟨some 0,lit "L4() takes no values"⟩
  else .ok .l4

-- Where a value stood in the text reaches no condition, only its error.
def texts (args : List Value) : List GoString := args.map Value.text

end

def maxDepth : Nat := 32

-- The source's text is `done ++ rest`, its offset the length of `done`.
structure Parser where
  done : GoString
  rest : GoString
  depth : Nat
deriving DecidableEq

structure Error where
  pos : Nat
  msg : GoString
deriving DecidableEq

section
variable (p : Parser)

def Parser.src : GoString := p.done ++ p.rest
def Parser.pos : Nat := p.done.length
def Parser.advance (n : Nat) : Parser := ⟨p.done ++ p.rest.take n,p.rest.drop n,p.depth⟩

def charPos (pos : Nat) : Nat := runeCount (p.src.take pos) + 1
def errAt (pos : Nat) (msg : GoString) : Error := ⟨charPos p pos,msg⟩

end

section
variable (u : Tables)

def excerpt (s : GoString) : GoString :=
  let stop := (((runesFrom 0 s).take 16).map Prod.snd).sum
  if stop = s.length then quote u s else quote u (s.take stop) ++ lit "..."

section
variable (p : Parser)

def unexpected (want : GoString) : Error :=
  if p.rest = [] then errAt p p.pos (lit "the rule ends too early; " ++ want)
  else errAt p p.pos (lit "unexpected " ++ excerpt u p.rest ++ lit "; " ++ want)

def isSpace (c : UInt8) : Bool := c == byte ' ' || c == byte '\t' || c == byte '\n' || c == byte '\r'
def skipSpace : Parser := p.advance (p.rest.takeWhile isSpace).length

def consume (tok : GoString) : Parser × Bool :=
  let p := skipSpace p
  if hasPrefix p.rest tok then (p.advance tok.length,true) else (p,false)

def consumeByte (c : UInt8) : Option Parser :=
  if p.rest.head? = some c then some (p.advance 1) else none

def ident : GoString × Parser :=
  let name := p.rest.takeWhile isIdentByte
  (name,p.advance name.length)

def parseValue : Except Error (Value × Parser) :=
  match p.rest with
  | [] => .error (errAt p p.pos (lit "expected a value in backticks, such as `example.com`, but the rule ends here"))
  | q :: body =>
    if q ≠ byte '`' ∧ q ≠ byte '"' then
      .error (unexpected u p (lit "expected a value in backticks or double quotes, such as `example.com`"))
    else match indexByte body q with
      | none => .error (errAt p p.pos (lit "this value's quote is never closed"))
      | some stop => .ok (⟨body.take stop,p.pos⟩,p.advance (1+stop+1))

end

-- Each turn takes two quotes at least, so `fuel` outlasts the loop.
def parseValuesLoop (name : GoString) : Nat → List Value → Parser → Except Error (List Value × Parser)
  | 0,_,p => .error (errAt p p.pos (lit "expected a value in backticks, such as `example.com`, but the rule ends here"))
  | fuel+1,out,p =>
    match parseValue u (skipSpace p) with
    | .error e => .error e
    | .ok (v,p) =>
      let out := out ++ [v]
      let p := skipSpace p
      match consumeByte p (byte ',') with
      | some p => parseValuesLoop name fuel out p
      | none => match consumeByte p (byte ')') with
        | some p => .ok (out,p)
        | none =>
          if p.rest = [] then .error (errAt p p.pos (lit "expected ) to close " ++ name ++ lit "(, but the rule ends here"))
          else .error (unexpected u p (lit "expected , or ) after a value of " ++ name))

def parseValues (name : GoString) (p : Parser) : Except Error (List Value × Parser) :=
  let p := skipSpace p
  match consumeByte p (byte ')') with
  | some p => .ok ([],p)
  | none => parseValuesLoop u name p.rest.length [] p

end

variable (lib : Lib R)

def parseCondition (p : Parser) : Except Error (Node R × Parser) :=
  let start := p.pos
  let (name,q) := ident p
  if name = [] then .error (unexpected lib.tables q (lit "expected a condition, such as Host(`example.com`)"))
  else if !isCondition name then .error (errAt q start (unknownCondition lib.tables name))
  else
    let q := skipSpace q
    match consumeByte q (byte '(') with
    | none => .error (unexpected lib.tables q (lit "expected ( after " ++ name))
    | some q => match parseValues lib.tables name q with
      | .error e => .error e
      | .ok (args,q) => match build lib name args with
        | .ok n => .ok (n,q)
        | .error bad =>
          let pos := match bad.arg with
            | none => start
            | some i => ((args[i]?).map Value.pos).getD start
          .error (errAt q pos bad.msg)

def parsePrimary (inner : Parser → Except Error (Node R × Parser)) (p : Parser) :
    Except Error (Node R × Parser) :=
  let p := skipSpace p
  match p.rest with
  | [] => .error (errAt p p.pos (lit "expected a condition, such as Host(`example.com`), but the rule ends here"))
  | c :: _ =>
    if c ≠ byte '(' then parseCondition lib p
    else if p.depth = maxDepth then
      .error (errAt p p.pos (lit "parentheses nest more than " ++ decimal maxDepth ++ lit " deep"))
    else match inner {p.advance 1 with depth := p.depth+1} with
      | .error e => .error e
      | .ok (n,q) =>
        let q := skipSpace {q with depth := q.depth-1}
        match consumeByte q (byte ')') with
        | some q => .ok (n,q)
        | none => .error (unexpected lib.tables q
            (lit "expected ) to close the parenthesis at character " ++ decimal (charPos q p.pos)))

-- Each '!' is a byte, so the loop over a run of them ends before `fuel` does.
def negations : Nat → Bool → Parser → Bool × Parser
  | 0,negated,p => (negated,p)
  | fuel+1,negated,p =>
    let p := skipSpace p
    match consumeByte p (byte '!') with
    | some p => negations fuel (!negated) p
    | none => (negated,p)

def parseUnary (inner : Parser → Except Error (Node R × Parser)) (p : Parser) :
    Except Error (Node R × Parser) :=
  let (negated,p) := negations p.rest.length false p
  match parsePrimary lib inner p with
  | .error e => .error e
  | .ok (n,p) => if negated then .ok (.opNot n,p) else .ok (n,p)

-- Each turn takes the operator, so here too `fuel` is never the reason to stop.
def parseListLoop (op : GoString) (operand : Parser → Except Error (Node R × Parser)) :
    Nat → List (Node R) → Parser → Except Error (List (Node R) × Parser)
  | 0,parts,p => .ok (parts,p)
  | fuel+1,parts,p =>
    match consume p op with
    | (p,false) => .ok (parts,p)
    | (p,true) => match operand p with
      | .error e => .error e
      | .ok (n,p) => parseListLoop op operand fuel (parts ++ [n]) p

def parseList (k : List (Node R) → Node R) (op : GoString)
    (operand : Parser → Except Error (Node R × Parser)) (p : Parser) : Except Error (Node R × Parser) :=
  match operand p with
  | .error e => .error e
  | .ok (first,p) => match parseListLoop op operand p.rest.length [first] p with
    | .error e => .error e
    | .ok ([_],p) => .ok (first,p)
    | .ok (parts,p) => .ok (k parts,p)

def parseAnd (inner : Parser → Except Error (Node R × Parser)) :
    Parser → Except Error (Node R × Parser) :=
  parseList .opAnd (lit "&&") (parseUnary lib inner)

-- `room` is how many levels of parentheses are left before maxDepth.
def parseOr : Nat → Parser → Except Error (Node R × Parser)
  | 0 => parseList .opOr (lit "||") (parseAnd lib fun p => .error (errAt p p.pos []))
  | room+1 => parseList .opOr (lit "||") (parseAnd lib (parseOr room))

def Parse (src : GoString) : Except Error (Expr R) :=
  let p := skipSpace ⟨[],src,0⟩
  if p.rest = [] then
    .error (errAt p 0 (lit "the rule is empty; a route needs at least one condition, such as PathPrefix(`/`)"))
  else match parseOr lib maxDepth p with
    | .error e => .error e
    | .ok (root,p) =>
      let p := skipSpace p
      if p.rest ≠ [] then .error (unexpected lib.tables p (lit "conditions are joined with && or ||"))
      else .ok ⟨root⟩

end Gateon.Rule
