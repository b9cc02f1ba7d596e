import Gateon.Rule.Parse

namespace Gateon.Rule
open Go Config List

-- The rule language as its grammar states it, apart from the parser.

structure Quoted where
  quote : UInt8
  text : GoString
  delimiter : quote = byte '`' ∨ quote = byte '"'
  closed : quote ∉ text

inductive Token where
  | bang
  | andAnd
  | orOr
  | left
  | right
  | comma
  | name (text : GoString)
  | value (v : Quoted)

def Token.text : Token → GoString
  | .bang => lit "!"
  | .andAnd => lit "&&"
  | .orOr => lit "||"
  | .left => lit "("
  | .right => lit ")"
  | .comma => lit ","
  | .name text => text
  | .value v => v.quote :: v.text ++ [v.quote]

-- The tokens in order, with any blanks before, between and after them.
inductive Spells : List Token → GoString → Prop where
  | nil (blank : s.all isSpace) : Spells [] s
  | cons (blank : ws.all isSpace) (rest : Spells ts s) : Spells (t :: ts) (ws ++ t.text ++ s)

-- { op x } is the list of its later operands, a run of '!' its length.
mutual
inductive Primary where
  | paren (e : Disjunction)
  | condition (name : GoString) (values : List Quoted)
inductive Unary where
  | mk (bangs : Nat) (operand : Primary)
inductive Conjunction where
  | mk (first : Unary) (rest : List Unary)
inductive Disjunction where
  | mk (first : Conjunction) (rest : List Conjunction)
end

def valueTokens : List Quoted → List Token
  | [] => []
  | [v] => [.value v]
  | v :: rest => .value v :: .comma :: valueTokens rest

mutual
def Primary.tokens : Primary → List Token
  | .paren e => .left :: (e.tokens ++ [.right])
  | .condition name values => .name name :: .left :: (valueTokens values ++ [.right])
def Unary.tokens : Unary → List Token
  | .mk bangs operand => List.replicate bangs .bang ++ operand.tokens
def Conjunction.tokens : Conjunction → List Token
  | .mk first rest => first.tokens ++ andTokens rest
def Disjunction.tokens : Disjunction → List Token
  | .mk first rest => first.tokens ++ orTokens rest
def andTokens : List Unary → List Token
  | [] => []
  | x :: rest => .andAnd :: (x.tokens ++ andTokens rest)
def orTokens : List Conjunction → List Token
  | [] => []
  | x :: rest => .orOr :: (x.tokens ++ orTokens rest)
end

-- How deep parentheses nest.
mutual
def Primary.nesting : Primary → Nat
  | .paren e => e.nesting + 1
  | .condition _ _ => 0
def Unary.nesting : Unary → Nat
  | .mk _ operand => operand.nesting
def Conjunction.nesting : Conjunction → Nat
  | .mk first rest => max first.nesting (andNesting rest)
def Disjunction.nesting : Disjunction → Nat
  | .mk first rest => max first.nesting (orNesting rest)
def andNesting : List Unary → Nat
  | [] => 0
  | x :: rest => max x.nesting (andNesting rest)
def orNesting : List Conjunction → Nat
  | [] => 0
  | x :: rest => max x.nesting (orNesting rest)
end

-- How many values, which must not be empty, what must be a token or compile.
def Checked (lib : Lib R) (name : GoString) (values : List GoString) : Prop :=
  if name = lit "Host" ∨ name = lit "Path" ∨ name = lit "PathPrefix" then ∃ v, values = [v] ∧ v ≠ []
  else if name = lit "HostRegexp" ∨ name = lit "PathRegex" then
    ∃ v re, values = [v] ∧ v ≠ [] ∧ lib.compile v = .ok re
  else if name = lit "Methods" then values ≠ [] ∧ ∀ v ∈ values, isToken v
  else if name = lit "Headers" then ∃ key v, values = [key,v] ∧ isToken key
  else name = lit "L4" ∧ values = []

def regexpHolds (lib : Lib R) (pattern text : GoString) : Bool :=
  match lib.compile pattern with
  | .ok re => lib.matchString re text
  | .error _ => false

-- What each condition says of a request.
def holds (lib : Lib R) (r : Request) (host name : GoString) (values : List GoString) : Bool :=
  let first := values.headD []
  if name = lit "Host" then hostMatches lib.tables first host
  else if name = lit "HostRegexp" then regexpHolds lib first host
  else if name = lit "Path" then r.path == first
  else if name = lit "PathPrefix" then hasPrefix r.path first
  else if name = lit "PathRegex" then regexpHolds lib first r.path
  else if name = lit "Methods" then matchMethod lib (values.map (toUpper lib.tables)) r
  else if name = lit "Headers" then matchHeader (canonicalMIMEHeaderKey first) (values.tail.headD []) r
  else true

mutual
def Primary.Accepted (lib : Lib R) : Primary → Prop
  | .paren e => e.Accepted lib
  | .condition name values => Checked lib name (values.map Quoted.text)
def Unary.Accepted (lib : Lib R) : Unary → Prop
  | .mk _ operand => operand.Accepted lib
def Conjunction.Accepted (lib : Lib R) : Conjunction → Prop
  | .mk first rest => first.Accepted lib ∧ andAccepted lib rest
def Disjunction.Accepted (lib : Lib R) : Disjunction → Prop
  | .mk first rest => first.Accepted lib ∧ orAccepted lib rest
def andAccepted (lib : Lib R) : List Unary → Prop
  | [] => True
  | x :: rest => x.Accepted lib ∧ andAccepted lib rest
def orAccepted (lib : Lib R) : List Conjunction → Prop
  | [] => True
  | x :: rest => x.Accepted lib ∧ orAccepted lib rest
end

-- The Boolean reading of a derivation: a run of k '!' negates when k is odd.
mutual
def Primary.reading (lib : Lib R) (r : Request) (host : GoString) : Primary → Bool
  | .paren e => e.reading lib r host
  | .condition name values => holds lib r host name (values.map Quoted.text)
def Unary.reading (lib : Lib R) (r : Request) (host : GoString) : Unary → Bool
  | .mk bangs operand =>
    if bangs % 2 = 1 then !operand.reading lib r host else operand.reading lib r host
def Conjunction.reading (lib : Lib R) (r : Request) (host : GoString) : Conjunction → Bool
  | .mk first rest => first.reading lib r host && andReading lib r host rest
def Disjunction.reading (lib : Lib R) (r : Request) (host : GoString) : Disjunction → Bool
  | .mk first rest => first.reading lib r host || orReading lib r host rest
def andReading (lib : Lib R) (r : Request) (host : GoString) : List Unary → Bool
  | [] => true
  | x :: rest => x.reading lib r host && andReading lib r host rest
def orReading (lib : Lib R) (r : Request) (host : GoString) : List Conjunction → Bool
  | [] => false
  | x :: rest => x.reading lib r host || orReading lib r host rest
end

def Derives (lib : Lib R) (src : GoString) (e : Disjunction) : Prop :=
  Spells e.tokens src ∧ e.nesting ≤ maxDepth ∧ e.Accepted lib

def dropSpace (s : GoString) : GoString := s.dropWhile isSpace

@[simp] theorem dropSpace_idem (s : GoString) : dropSpace (dropSpace s) = dropSpace s := by
  unfold dropSpace
  induction s with
  | nil => rfl
  | cons c t ih => by_cases blank : isSpace c <;> simp [blank,ih]

theorem dropSpace_solid (solid : isSpace c = false) : dropSpace (c :: t) = c :: t := by
  simp [dropSpace,solid]

theorem dropSpace_blank (blank : ws.all isSpace) (s : GoString) : dropSpace (ws ++ s) = dropSpace s := by
  unfold dropSpace
  induction ws with
  | nil => rfl
  | cons c t ih => simp only [all_cons,Bool.and_eq_true] at blank; simp [blank.1,ih blank.2]

theorem dropSpace_nil : dropSpace s = [] ↔ s.all isSpace := by
  unfold dropSpace
  induction s with
  | nil => simp
  | cons c t ih => by_cases blank : isSpace c <;> simp_all

theorem dropSpace_length (s : GoString) : (dropSpace s).length ≤ s.length := by
  have whole := congrArg List.length (takeWhile_append_dropWhile (p:=isSpace) (l:=s))
  simp only [length_append] at whole
  unfold dropSpace
  omega

@[simp] theorem advance_rest (p : Parser) (n : Nat) : (p.advance n).rest = p.rest.drop n := rfl
@[simp] theorem advance_depth (p : Parser) (n : Nat) : (p.advance n).depth = p.depth := rfl

theorem drop_takeWhile (keep : UInt8 → Bool) (s : GoString) : s.drop (s.takeWhile keep).length = s.dropWhile keep := by
  calc s.drop (s.takeWhile keep).length
      = (s.takeWhile keep ++ s.dropWhile keep).drop (s.takeWhile keep).length := by
        rw [takeWhile_append_dropWhile]
    _ = s.dropWhile keep := drop_left

@[simp] theorem skipSpace_rest (p : Parser) : (skipSpace p).rest = dropSpace p.rest :=
  drop_takeWhile isSpace p.rest
@[simp] theorem skipSpace_depth (p : Parser) : (skipSpace p).depth = p.depth := rfl

theorem consumeByte_some (took : consumeByte p c = some q) : p.rest = c :: q.rest ∧ q.depth = p.depth := by
  obtain ⟨head,⟨⟩⟩ := Option.ite_none_right_eq_some.mp took
  cases rest : p.rest with
  | nil => simp [rest] at head
  | cons b t => simp_all

theorem consumeByte_take (here : p.rest = c :: m) :
    ∃ q, consumeByte p c = some q ∧ q.rest = m ∧ q.depth = p.depth :=
  ⟨p.advance 1,by simp [consumeByte,here],by simp [here],rfl⟩

theorem consumeByte_refuse (other : p.rest.head? ≠ some c) : consumeByte p c = none := by
  simp [consumeByte,other]

@[simp] theorem text_bang : Token.bang.text = [byte '!'] := rfl
@[simp] theorem text_left : Token.left.text = [byte '('] := rfl
@[simp] theorem text_right : Token.right.text = [byte ')'] := rfl
@[simp] theorem text_comma : Token.comma.text = [byte ','] := rfl
@[simp] theorem text_name (word : GoString) : (Token.name word).text = word := rfl

-- A token's text never starts with a blank, so blanks before it are not its own.
def Token.Solid (t : Token) : Prop := ∃ c rest, t.text = c :: rest ∧ isSpace c = false

-- `Spells` from the parser's side: what is left is an argument.
inductive Reads : List Token → GoString → GoString → Prop where
  | nil (same : dropSpace s = dropSpace r) : Reads [] s r
  | cons (here : dropSpace s = t.text ++ m) (rest : Reads ts m r) : Reads (t :: ts) s r

theorem Reads.refl (s : GoString) : Reads [] s s := .nil rfl

theorem reads_from_space : Reads ts (dropSpace s) r ↔ Reads ts s r := by
  constructor <;>
  · intro reads
    cases reads with
    | nil same => exact .nil (by simpa using same)
    | cons here rest => exact .cons (by simpa using here) rest

theorem reads_same_end (reads : Reads ts s r) (same : dropSpace r = dropSpace r') : Reads ts s r' := by
  induction reads with
  | nil before => exact .nil (before.trans same)
  | cons here _ ih => exact .cons here (ih same)

theorem reads_append : Reads (a ++ b) s r ↔ ∃ m, Reads a s m ∧ Reads b m r := by
  constructor
  · intro reads
    induction a generalizing s with
    | nil => exact ⟨s,.refl s,reads⟩
    | cons t a ih =>
      cases reads with
      | cons here rest => obtain ⟨m,first,second⟩ := ih rest; exact ⟨m,.cons here first,second⟩
  · rintro ⟨m,first,second⟩
    induction first with
    | nil same => exact reads_from_space.mp (same ▸ reads_from_space.mpr second)
    | cons here _ ih => exact .cons here (ih second)

theorem reads_one : Reads [t] s r ↔ ∃ m, dropSpace s = t.text ++ m ∧ dropSpace m = dropSpace r := by
  constructor
  · intro reads
    cases reads with
    | cons here rest => cases rest with
      | nil same => exact ⟨_,here,same⟩
  · rintro ⟨m,here,same⟩; exact .cons here (.nil same)

theorem reads_cons : Reads (t :: ts) s r ↔ ∃ m, dropSpace s = t.text ++ m ∧ Reads ts m r := by
  constructor
  · intro reads
    cases reads with
    | cons here rest => exact ⟨_,here,rest⟩
  · rintro ⟨m,here,rest⟩; exact .cons here rest

theorem spells_reads (solid : ∀ t ∈ ts, t.Solid) : Spells ts s ↔ Reads ts s [] := by
  induction ts generalizing s with
  | nil =>
    constructor
    · intro spelt
      cases spelt with
      | nil blank => exact .nil (by simpa [dropSpace] using dropSpace_nil.mpr blank)
    · intro reads
      cases reads with
      | nil same => exact .nil (dropSpace_nil.mp (by simpa [dropSpace] using same))
  | cons t ts ih =>
    have rest := fun s => ih (s:=s) (forall_mem_cons.mp solid).2
    constructor
    · intro spelt
      cases spelt with
      | cons blank tail =>
        obtain ⟨c,body,text,notSpace⟩ := solid t (by simp)
        refine .cons ?_ ((rest _).mp tail)
        rw [append_assoc,dropSpace_blank blank,text,cons_append,dropSpace_solid notSpace]
    · intro reads
      cases reads with
      | cons here tail =>
        have split := takeWhile_append_dropWhile (p:=isSpace) (l:=s)
        change _ ++ dropSpace s = s at split
        rw [← split,here,← append_assoc]
        exact .cons (all_takeWhile) ((rest _).mpr tail)

def Means (lib : Lib R) (n : Node R) (reading : Request → GoString → Bool) : Prop :=
  ∀ r host, eval lib r host n = reading r host

theorem single_ok : single name args want = .ok v ↔ texts args = [v] ∧ v ≠ [] := by
  unfold single texts
  split
  · rename_i a
    split
    · rename_i blank
      simp only [reduceCtorEq,map_cons,map_nil,List.cons.injEq,and_true,false_iff,not_and,not_not]
      rintro rfl
      exact blank
    · rename_i filled
      simp only [Except.ok.injEq,map_cons,map_nil,List.cons.injEq,and_true]
      constructor
      · rintro rfl; exact ⟨rfl,filled⟩
      · exact And.left
  · rename_i other
    simp only [reduceCtorEq,false_iff,not_and]
    intro one
    obtain ⟨a,rfl,_⟩ := map_eq_singleton_iff.mp one
    exact absurd rfl (other a)

section
variable {lib : Lib R}

theorem regex_ok : regex lib name args = .ok (v,re) ↔ texts args = [v] ∧ v ≠ [] ∧ lib.compile v = .ok re := by
  unfold regex
  split
  · rename_i bad failed
    simp only [reduceCtorEq,false_iff]
    rintro ⟨one,filled,_⟩
    rw [single_ok.mpr ⟨one,filled⟩] at failed
    cases failed
  rename_i w read
  obtain ⟨one,filled⟩ := single_ok.mp read
  split
  · rename_i err failed
    simp only [reduceCtorEq,false_iff]
    rintro ⟨other,_,compiled⟩
    rw [one] at other
    cases other
    rw [failed] at compiled
    cases compiled
  · rename_i re' compiled
    simp only [Except.ok.injEq,Prod.mk.injEq]
    constructor
    · rintro ⟨rfl,rfl⟩; exact ⟨one,filled,compiled⟩
    rintro ⟨other,_,again⟩
    rw [one] at other
    cases other
    rw [compiled] at again
    exact ⟨rfl,Except.ok.inj again⟩

theorem methodTexts_ok : methodTexts u i args = .ok ms ↔
    (∀ v ∈ texts args, isToken v) ∧ ms = (texts args).map (toUpper u) := by
  induction args generalizing i ms with
  | nil =>
    simp only [methodTexts,texts,map_nil,Except.ok.injEq,not_mem_nil,false_imp_iff,implies_true,true_and]
    exact eq_comm
  | cons a rest ih =>
    simp only [methodTexts]
    split
    · rename_i token
      cases tail : methodTexts u (i+1) rest with
      | error e =>
        have refused := fun ms => (not_congr (@ih (i+1) ms)).mp (by simp [tail])
        simp only [Except.map,reduceCtorEq,texts,map_cons,forall_mem_cons,false_iff,not_and]
        intro tokens equal
        exact absurd ⟨tokens.2,rfl⟩ (refused _)
      | ok tl =>
        obtain ⟨tokens,rfl⟩ := ih.mp tail
        simp only [Except.map,Except.ok.injEq,texts,map_cons,forall_mem_cons]
        constructor
        · rintro rfl; exact ⟨⟨token,tokens⟩,rfl⟩
        · rintro ⟨_,rfl⟩; rfl
    · rename_i other
      simp only [reduceCtorEq,texts,map_cons,forall_mem_cons,false_iff,not_and]
      exact fun tokens => absurd tokens.1 other

theorem map_ok {f : α → β} {x : Except ε α} : x.map f = .ok b ↔ ∃ a, x = .ok a ∧ f a = b := by
  cases x <;> simp [Except.map]

theorem buildHeaders_ok : buildHeaders lib args = .ok n ↔
    ∃ key v, texts args = [key,v] ∧ isToken key ∧ n = .headers (canonicalMIMEHeaderKey key) v := by
  unfold buildHeaders texts
  split
  · rename_i a b
    split
    · rename_i token
      simp only [Except.ok.injEq,map_cons,map_nil,List.cons.injEq,and_true]
      constructor
      · rintro rfl; exact ⟨_,_,⟨rfl,rfl⟩,token,rfl⟩
      · rintro ⟨_,_,⟨rfl,rfl⟩,_,rfl⟩; rfl
    · rename_i other
      simp only [reduceCtorEq,map_cons,map_nil,List.cons.injEq,and_true,false_iff,not_exists]
      rintro _ _ ⟨⟨rfl,_⟩,token,_⟩
      exact other token
  · rename_i other
    simp only [reduceCtorEq,false_iff,not_exists]
    rintro key v ⟨two,_⟩
    obtain ⟨a,rest,rfl,_,one⟩ := map_eq_cons_iff.mp two
    obtain ⟨b,rfl,_⟩ := map_eq_singleton_iff.mp one
    exact absurd rfl (other a b)

theorem condition_cases (known : isCondition name) :
    (name = lit "Host" ∨ name = lit "Path" ∨ name = lit "PathPrefix") ∨ (name = lit "HostRegexp" ∨ name = lit "PathRegex") ∨
      name = lit "Methods" ∨ name = lit "Headers" ∨ name = lit "L4" := by
  simp [isCondition,conditions] at known
  tauto

theorem build_sound (known : isCondition name) (built : build lib name args = .ok n) :
    Checked lib name (texts args) ∧ Means lib n (fun r host => holds lib r host name (texts args)) := by
  rcases condition_cases known with one | pattern | rfl | rfl | rfl
  · rcases one with rfl | rfl | rfl <;>
    · obtain ⟨v,read,rfl⟩ := map_ok.mp built
      obtain ⟨one,filled⟩ := single_ok.mp read
      exact ⟨⟨v,one,filled⟩,fun r host => by rw [one]; rfl⟩
  · rcases pattern with rfl | rfl <;>
    · obtain ⟨⟨v,re⟩,read,rfl⟩ := map_ok.mp built
      obtain ⟨one,filled,compiled⟩ := regex_ok.mp read
      refine ⟨⟨v,re,one,filled,compiled⟩,fun r host => ?_⟩
      rw [one]
      change lib.matchString re _ = regexpHolds lib v _
      simp [regexpHolds,compiled]
  · change buildMethods lib args = .ok n at built
    unfold buildMethods at built
    split at built
    · cases built
    rename_i filled
    obtain ⟨ms,read,rfl⟩ := map_ok.mp built
    obtain ⟨tokens,rfl⟩ := methodTexts_ok.mp read
    exact ⟨⟨by simpa [texts] using filled,tokens⟩,fun r host => rfl⟩
  · change buildHeaders lib args = .ok n at built
    obtain ⟨key,v,two,token,rfl⟩ := buildHeaders_ok.mp built
    exact ⟨⟨key,v,two,token⟩,fun r host => by rw [two]; rfl⟩
  change (if args ≠ [] then _ else _) = _ at built
  split at built
  · cases built
  rename_i none
  simp only [ne_eq,not_not] at none
  subst none
  cases built
  exact ⟨⟨rfl,rfl⟩,fun r host => rfl⟩

theorem checked_known (checked : Checked lib name values) : isCondition name := by
  unfold Checked at checked
  split at checked
  · rename_i named; rcases named with rfl | rfl | rfl <;> decide +kernel
  split at checked
  · rename_i named; rcases named with rfl | rfl <;> decide +kernel
  split at checked
  · rename_i named
    subst named
    decide +kernel
  · split at checked
    · rename_i named
      subst named
      decide +kernel
    · obtain ⟨rfl,_⟩ := checked; decide +kernel

theorem build_complete (args : List Value) (checked : Checked lib name (texts args)) : ∃ n, build lib name args = .ok n := by
  rcases condition_cases (checked_known checked) with one | pattern | rfl | rfl | rfl
  · rcases one with rfl | rfl | rfl <;>
    · obtain ⟨v,one,filled⟩ := checked; exact ⟨_,map_ok.mpr ⟨v,single_ok.mpr ⟨one,filled⟩,rfl⟩⟩
  · rcases pattern with rfl | rfl <;>
    · obtain ⟨v,re,one,filled,compiled⟩ := checked
      exact ⟨_,map_ok.mpr ⟨(v,re),regex_ok.mpr ⟨one,filled,compiled⟩,rfl⟩⟩
  · obtain ⟨filled,tokens⟩ := checked
    have some : args ≠ [] := by simpa [texts] using filled
    refine ⟨.methods ((texts args).map (toUpper lib.tables)),?_⟩
    change buildMethods lib args = _
    unfold buildMethods
    rw [if_neg some]
    exact map_ok.mpr ⟨_,methodTexts_ok.mpr ⟨tokens,rfl⟩,rfl⟩
  · obtain ⟨key,v,two,token⟩ := checked; exact ⟨_,buildHeaders_ok.mpr ⟨key,v,two,token,rfl⟩⟩
  obtain ⟨_,none⟩ := checked
  have empty : args = [] := by simpa [texts] using none
  subst empty
  exact ⟨.l4,rfl⟩

end

theorem drop_quoted (a b : GoString) (c : UInt8) : (c :: (a ++ c :: b)).drop (1+a.length+1) = b := by
  simp [Nat.add_comm 1,drop_append]

theorem parseValue_sound (read : parseValue u p = .ok (v,q)) :
    ∃ w : Quoted, p.rest = (Token.value w).text ++ q.rest ∧ w.text = v.text ∧ q.depth = p.depth := by
  unfold parseValue at read
  split at read
  · cases read
  rename_i c body rest
  split at read
  · cases read
  rename_i quoted
  split at read
  · cases read
  rename_i stop found
  cases read
  obtain ⟨a,b,rfl,missing,rfl⟩ := indexByte_split.mp found
  have delimiter : c = byte '`' ∨ c = byte '"' := by
    by_cases tick : c = byte '`'
    · exact .inl tick
    · exact .inr (by_contra fun other => quoted ⟨tick,other⟩)
  refine ⟨⟨c,a,delimiter,missing⟩,?_,by simp,rfl⟩
  simp [rest,Token.text,drop_quoted a b c]

theorem parseValue_complete (w : Quoted) (here : p.rest = (Token.value w).text ++ m) :
    ∃ v q, parseValue u p = .ok (v,q) ∧ v.text = w.text ∧ q.rest = m ∧ q.depth = p.depth := by
  have rest : p.rest = w.quote :: (w.text ++ w.quote :: m) := by simpa [Token.text] using here
  have quoted : ¬(w.quote ≠ byte '`' ∧ w.quote ≠ byte '"') := fun other =>
    w.delimiter.elim other.1 other.2
  have found : indexByte (w.text ++ w.quote :: m) w.quote = some w.text.length :=
    indexByte_split.mpr ⟨w.text,m,rfl,w.closed,rfl⟩
  refine ⟨⟨w.text,p.pos⟩,p.advance (1+w.text.length+1),?_,rfl,?_,rfl⟩
  · unfold parseValue
    rw [rest]
    simp [quoted,found]
  · rw [advance_rest,rest,drop_quoted]

theorem quote_solid (w : Quoted) : isSpace w.quote = false := by
  rcases w.delimiter with tick | double
  · rw [tick]; decide
  · rw [double]; decide

theorem valueTokens_cons (w : Quoted) (ws : List Quoted) (more : ws ≠ []) :
    valueTokens (w :: ws) = .value w :: .comma :: valueTokens ws := by
  cases ws with
  | nil => exact absurd rfl more
  | cons x rest => rfl

-- Induction on the fuel, with what was collected so far kept as it is.
theorem valuesLoop_sound (read : parseValuesLoop u name fuel out p = .ok (vs,q)) :
    ∃ ws : List Quoted, ws ≠ [] ∧ texts vs = texts out ++ ws.map Quoted.text ∧
      Reads (valueTokens ws ++ [.right]) p.rest q.rest ∧ q.depth = p.depth := by
  induction fuel generalizing out p with
  | zero => cases read
  | succ fuel ih =>
    unfold parseValuesLoop at read
    split at read
    · cases read
    rename_i v p1 got
    obtain ⟨w,here,same,depth1⟩ := parseValue_sound got
    simp only [skipSpace_rest,skipSpace_depth] at here depth1
    dsimp only at read
    split at read
    · rename_i p2 comma
      obtain ⟨here2,depth2⟩ := consumeByte_some comma
      obtain ⟨ws,some,collected,rest,depth3⟩ := ih read
      simp only [skipSpace_rest,skipSpace_depth] at here2 depth2
      refine ⟨w :: ws,by simp,?_,?_,by rw [depth3,depth2,depth1]⟩
      · rw [collected]; simp [texts,same]
      · rw [valueTokens_cons w ws some]; exact .cons here (.cons here2 rest)
    · split at read
      · rename_i p2 close
        cases read
        obtain ⟨here2,depth2⟩ := consumeByte_some close
        simp only [skipSpace_rest,skipSpace_depth] at here2 depth2
        refine ⟨[w],by simp,by simp [texts,same],?_,by rw [depth2,depth1]⟩
        exact .cons here (.cons here2 (.refl _))
      · split at read <;> cases read

theorem consumeByte_other (here : p.rest = d :: m) (other : d ≠ c) : consumeByte p c = none :=
  consumeByte_refuse (by simp [here,other])

theorem valuesLoop_complete (u : Tables) (name : GoString) (fuel : Nat) (out : List Value) (ws : List Quoted) (some : ws ≠ [])
    (reads : Reads (valueTokens ws ++ [.right]) p.rest m) (enough : p.rest.length ≤ fuel) :
    ∃ vs q, parseValuesLoop u name fuel out p = .ok (vs,q) ∧ texts vs = texts out ++ ws.map Quoted.text ∧
      dropSpace q.rest = dropSpace m ∧ q.depth = p.depth := by
  induction ws generalizing out p fuel with
  | nil => exact absurd rfl some
  | cons w ws ih =>
    have first : ∃ tail rest, valueTokens (w :: ws) ++ [.right] = .value w :: tail ∧
        dropSpace p.rest = (Token.value w).text ++ rest ∧ Reads tail rest m := by
      cases ws <;>
      · obtain ⟨rest,here,tail⟩ := reads_cons.mp reads
        exact ⟨_,rest,rfl,here,tail⟩
    obtain ⟨tail,rest,tokens,here,reads'⟩ := first
    have size := congrArg List.length here
    have shrink := dropSpace_length p.rest
    simp only [length_append,Token.text,length_cons] at size
    obtain ⟨fuel,rfl⟩ : ∃ k, fuel = k+1 := ⟨fuel-1,by omega⟩
    obtain ⟨v,q1,got,same,rest1,depth1⟩ := parseValue_complete (u:=u) (p:=skipSpace p) w (by simpa using here)
    unfold parseValuesLoop
    simp only [got]
    cases ws with
    | nil =>
      cases tokens
      obtain ⟨after,close,done⟩ := reads_one.mp reads'
      have closeRest : (skipSpace q1).rest = byte ')' :: after := by simpa [rest1] using close
      obtain ⟨q2,took,rest2,depth2⟩ := consumeByte_take closeRest
      rw [consumeByte_other closeRest (by decide),took]
      exact ⟨_,_,rfl,by simp [texts,same],by rw [rest2,done],by rw [depth2]; simpa using depth1⟩
    | cons x xs =>
      cases tokens
      obtain ⟨after,comma,more⟩ := reads_cons.mp reads'
      have commaRest : (skipSpace q1).rest = byte ',' :: after := by simpa [rest1] using comma
      obtain ⟨q2,took,rest2,depth2⟩ := consumeByte_take commaRest
      have small : q2.rest.length ≤ fuel := by
        have inside := congrArg List.length commaRest
        have again := dropSpace_length q1.rest
        simp only [skipSpace_rest,length_cons] at inside
        rw [rest2]
        rw [rest1] at inside again
        omega
      obtain ⟨vs,q3,ran,collected,rest3,depth3⟩ :=
        ih (p:=q2) fuel (out ++ [v]) (by simp) (by rw [rest2]; exact more) small
      rw [took]
      refine ⟨vs,q3,ran,?_,rest3,by rw [depth3,depth2]; simpa using depth1⟩
      rw [collected]
      simp [texts,same]

theorem parseValues_sound (read : parseValues u name p = .ok (vs,q)) :
    ∃ ws : List Quoted, texts vs = ws.map Quoted.text ∧
      Reads (valueTokens ws ++ [.right]) p.rest q.rest ∧ q.depth = p.depth := by
  unfold parseValues at read
  dsimp only at read
  split at read
  · rename_i p1 close
    cases read
    obtain ⟨here,depth⟩ := consumeByte_some close
    exact ⟨[],rfl,.cons (by simpa using here) (.refl _),by simpa using depth⟩
  · obtain ⟨ws,_,collected,reads,depth⟩ := valuesLoop_sound read
    exact ⟨ws,by simpa [texts] using collected,reads_from_space.mp (by simpa using reads),by simpa using depth⟩

theorem parseValues_complete (u : Tables) (name : GoString) (ws : List Quoted) (reads : Reads (valueTokens ws ++ [.right]) p.rest m) :
    ∃ vs q, parseValues u name p = .ok (vs,q) ∧ texts vs = ws.map Quoted.text ∧
      dropSpace q.rest = dropSpace m ∧ q.depth = p.depth := by
  unfold parseValues
  cases ws with
  | nil =>
    obtain ⟨after,close,done⟩ := reads_one.mp reads
    obtain ⟨q,took,rest,depth⟩ := consumeByte_take (p:=skipSpace p) (c:=byte ')') (m:=after) (by simpa using close)
    simp only [took]
    exact ⟨[],q,rfl,rfl,by rw [rest,done],by simpa using depth⟩
  | cons w ws =>
    have starts : ∃ tail, (skipSpace p).rest = w.quote :: tail := by
      cases ws <;> (obtain ⟨rest,here,_⟩ := reads_cons.mp reads; exact ⟨_,by simpa [Token.text] using here⟩)
    obtain ⟨tail,head⟩ := starts
    have notClose : w.quote ≠ byte ')' := by
      rcases w.delimiter with tick | double
      · rw [tick]; decide
      · rw [double]; decide
    simp only [consumeByte_other head notClose]
    obtain ⟨vs,q,ran,collected,rest,depth⟩ := valuesLoop_complete (p:=skipSpace p) u name
      (skipSpace p).rest.length [] (w :: ws) (by simp) (by simpa using reads_from_space.mpr reads) le_rfl
    exact ⟨vs,q,ran,by simpa [texts] using collected,rest,by simpa using depth⟩

theorem ident_space (letter : isIdentByte c) : isSpace c = false := by
  unfold isSpace
  by_cases blank : c = byte ' ' ∨ c = byte '\t' ∨ c = byte '\n' ∨ c = byte '\r'
  · rcases blank with rfl | rfl | rfl | rfl <;> exact absurd letter (by decide)
  · simp only [not_or] at blank; simp [blank]

theorem ident_left : isIdentByte (byte '(') = false := by decide

theorem condition_letters (known : isCondition name) : name ≠ [] ∧ name.all isIdentByte := by
  have all : ∀ c ∈ conditions, c ≠ [] ∧ c.all isIdentByte := by decide +kernel
  exact all name (by simpa [isCondition] using known)

theorem takeWhile_stop {keep : UInt8 → Bool} {a b : GoString} (inside : a.all keep) (stop : b.takeWhile keep = []) :
    (a ++ b).takeWhile keep = a := by
  rw [takeWhile_append_of_pos (all_eq_true.mp inside),stop,append_nil]

theorem parseCondition_sound (read : parseCondition lib p = .ok (n,q)) :
    ∃ name values, Reads (Primary.condition name values).tokens p.rest q.rest ∧
      Checked lib name (values.map Quoted.text) ∧
      Means lib n (fun r host => holds lib r host name (values.map Quoted.text)) ∧ q.depth = p.depth := by
  unfold parseCondition ident at read
  dsimp only at read
  split at read
  · cases read
  rename_i filled
  split at read
  · cases read
  rename_i known
  simp only [Bool.not_eq_true,Bool.not_eq_false'] at known
  split at read
  · cases read
  rename_i q1 opened
  obtain ⟨left,depth1⟩ := consumeByte_some opened
  split at read
  · cases read
  rename_i args q2 valuesRead
  obtain ⟨values,same,reads,depth2⟩ := parseValues_sound valuesRead
  split at read
  · rename_i n' built
    cases read
    obtain ⟨checked,means⟩ := build_sound known built
    rw [same] at checked means
    refine ⟨_,values,?_,checked,means,by rw [depth2]; simpa using depth1⟩
    have split := takeWhile_append_dropWhile (p:=isIdentByte) (l:=p.rest)
    simp only [skipSpace_rest,advance_rest,drop_takeWhile] at left
    refine .cons (m:=p.rest.dropWhile isIdentByte) ?_ (.cons left reads)
    conv_lhs => rw [← split]
    cases word : p.rest.takeWhile isIdentByte with
    | nil => exact absurd word filled
    | cons c rest =>
      have letter : isIdentByte c := by
        have all := all_takeWhile (p:=isIdentByte) (l:=p.rest)
        rw [word] at all
        simp only [all_cons,Bool.and_eq_true] at all
        exact all.1
      simp [Token.text,dropSpace_solid (ident_space letter)]
  · cases read

theorem parseCondition_complete {lib : Lib R} (name : GoString) (values : List Quoted) (checked : Checked lib name (values.map Quoted.text))
    (reads : Reads (Primary.condition name values).tokens p.rest m) (flush : dropSpace p.rest = p.rest) :
    ∃ n q, parseCondition lib p = .ok (n,q) ∧ dropSpace q.rest = dropSpace m ∧ q.depth = p.depth ∧
      Means lib n (fun r host => holds lib r host name (values.map Quoted.text)) := by
  have known := checked_known checked
  obtain ⟨filled,letters⟩ := condition_letters known
  obtain ⟨rest,here,more⟩ := reads_cons.mp (by simpa [Primary.tokens] using reads)
  obtain ⟨inside,left,tail⟩ := reads_cons.mp more
  have whole : p.rest = name ++ rest := flush.symm.trans here
  have stop : rest.takeWhile isIdentByte = [] := by
    cases rest with
    | nil => rfl
    | cons c t =>
      by_cases blank : isSpace c
      · have other : isIdentByte c = false := by
          by_contra letter
          simp only [Bool.not_eq_false] at letter
          simp [ident_space letter] at blank
        simp [other]
      · have solid : dropSpace (c :: t) = c :: t := dropSpace_solid (by simpa using blank)
        have head : c = byte '(' := by rw [solid] at left; exact (List.cons.inj left).1
        simp [head,ident_left]
  have word : p.rest.takeWhile isIdentByte = name := by rw [whole]; exact takeWhile_stop letters stop
  have after : (skipSpace (p.advance name.length)).rest = byte '(' :: inside := by
    simp only [skipSpace_rest,advance_rest,whole,drop_left]
    exact left
  obtain ⟨q1,opened,rest1,depth1⟩ := consumeByte_take after
  obtain ⟨vs,q2,read,same,rest2,depth2⟩ := parseValues_complete (p:=q1) lib.tables name values
    (by rw [rest1]; exact tail)
  obtain ⟨n,built⟩ := build_complete vs (by rw [same]; exact checked)
  have means := (build_sound known built).2
  rw [same] at means
  refine ⟨n,q2,?_,rest2,by rw [depth2,depth1]; simp,means⟩
  unfold parseCondition ident
  simp only [word,filled,known,opened,read,built,Bool.not_true,Bool.false_eq_true,↓reduceIte]

end Gateon.Rule
