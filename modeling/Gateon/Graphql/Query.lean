import Gateon.Go.Trim
import Gateon.Lib.DepthFirst

namespace Gateon.Graphql
open Go List Nat

inductive SelectionSet where
  | nil
  | field (name : GoString) (sub rest : SelectionSet)
  | inline (sub rest : SelectionSet)
  | spread (name : GoString) (rest : SelectionSet)
deriving DecidableEq

structure Document where
  operations : List SelectionSet
  fragments : List (GoString × SelectionSet)

-- newFragmentIndex: a later definition of a name replaces an earlier one.
def Document.defs (doc : Document) (name : GoString) : Option SelectionSet :=
  (doc.fragments.reverse.find? fun f => f.1 == name).map Prod.snd

def Document.names (doc : Document) : List GoString := doc.fragments.map Prod.fst

structure Trail (R : Type) where
  open' : List GoString
  memo : List (GoString × R)
  entered : List GoString
  peak : Nat

def Trail.reach (t : Trail R) (level : Nat) : Trail R := {t with peak := max t.peak level}

-- What tells one walk from another.
structure Pass (E R : Type) where
  init : R
  refuses : GoString → Option E
  descends : SelectionSet → Bool
  field : GoString → R → Option R → R
  inline : R → R → R
  spread : R → R → R
  absent : R
  close : R → R
  total : R → R → R
  fieldFrames : Nat
  inlineFrames : Nat
  spreadFrames : Nat

namespace Pass
variable (p : Pass E R)

def walk (into : GoString → Nat → Trail R → Option (Except E R × Trail R)) (level : Nat) :
    SelectionSet → R → Trail R → Option (Except E R × Trail R)
  | .nil,acc,t => some (.ok (p.close acc),t)
  | .field name sub rest,acc,t =>
    match p.refuses name with
    | some e => some (.error e,t)
    | none =>
      if p.descends sub then
        (walk into (level + p.fieldFrames) sub p.init (t.reach (level + p.fieldFrames))).bind fun
          | (.error e,t) => some (.error e,t)
          | (.ok r,t) => walk into level rest (p.field name acc (some r)) t
      else walk into level rest (p.field name acc none) t
  | .inline sub rest,acc,t =>
    (walk into (level + p.inlineFrames) sub p.init (t.reach (level + p.inlineFrames))).bind fun
      | (.error e,t) => some (.error e,t)
      | (.ok r,t) => walk into level rest (p.inline acc r) t
  | .spread name rest,acc,t =>
    (into name (level + p.spreadFrames) (t.reach (level + p.spreadFrames))).bind fun
      | (.error e,t) => some (.error e,t)
      | (.ok r,t) => walk into level rest (p.spread acc r) t

-- The four spread functions: known fragments are not walked again.
def into (defs : GoString → Option SelectionSet) : Nat → GoString → Nat → Trail R → Option (Except E R × Trail R)
  | fuel,name,level,t =>
    match t.memo.lookup name with
    | some r => some (.ok r,t)
    | none =>
      if name ∈ t.open' then some (.ok p.absent,t.reach (level + 1))
      else
        match defs name,fuel with
        | none,_ => some (.ok p.absent,t.reach (level + 1))
        | some _,0 => none
        | some body,fuel + 1 =>
          (walk p (into defs fuel) (level + 1) body p.init
            {t.reach (level + 1) with open' := name :: t.open',entered := t.entered ++ [name]}).map fun
            | (.error e,t') => (.error e,{t' with open' := t.open'})
            | (.ok r,t') => (.ok r,{t' with open' := t.open',memo := (name,r) :: t'.memo})

def operations (into : GoString → Nat → Trail R → Option (Except E R × Trail R)) :
    List SelectionSet → R → Trail R → Option (Except E R × Trail R)
  | [],acc,t => some (.ok acc,t)
  | op :: rest,acc,t =>
    (p.walk into 2 op p.init (t.reach 2)).bind fun
      | (.error e,t) => some (.error e,t)
      | (.ok r,t) => operations into rest (p.total acc r) t

def run (doc : Document) : Option (Except E R × Trail R) :=
  p.operations (p.into doc.defs doc.fragments.length) doc.operations p.absent ⟨[],[],[],1⟩

end Pass

def minInt : Int := -2^63

def addCost (a b : Int) : Int :=
  let sum := a + b
  if 0 < a ∧ 0 < b ∧ maxInt < sum then maxInt
  else if a < 0 ∧ b < 0 ∧ sum < minInt then minInt
  else sum

def depthPass : Pass Empty Nat where
  init := 0
  refuses := fun _ => none
  descends := fun sub => sub ≠ .nil
  field := fun _ acc sub => max acc (sub.getD 0)
  inline := max
  spread := max
  absent := 0
  close := fun acc => 1 + acc
  total := max
  fieldFrames := 2
  inlineFrames := 2
  spreadFrames := 1

def complexityPass (costs : GoString → Option Int) : Pass Empty Int where
  init := 0
  refuses := fun _ => none
  descends := fun sub => sub ≠ .nil
  field := fun name acc sub =>
    let cost := (costs name).getD 1
    addCost acc (match sub with
      | some sub => addCost cost sub
      | none => cost)
  inline := addCost
  spread := addCost
  absent := 0
  close := id
  total := addCost
  fieldFrames := 1
  inlineFrames := 1
  spreadFrames := 1

def introspectionPass : Pass Unit Unit where
  init := ()
  refuses := fun name => if hasPrefix name (lit "__") then some () else none
  descends := fun _ => false
  field := fun _ _ _ => ()
  inline := fun _ _ => ()
  spread := fun _ _ => ()
  absent := ()
  close := id
  total := fun _ _ => ()
  fieldFrames := 1
  inlineFrames := 1
  spreadFrames := 1

-- checkFieldAuth; check, checkSelection and checkSpread are calls of their own.
def authPass (need : GoString → Option GoString) (have' : GoString → Bool) : Pass GoString Unit where
  init := ()
  refuses := fun name => (need name).bind fun claim =>
    if have' claim then none
    else some (lit "access denied for field: " ++ name ++ lit " (requires claim: " ++ claim ++ lit ")")
  descends := fun _ => true
  field := fun _ _ _ => ()
  inline := fun _ _ => ()
  spread := fun _ _ => ()
  absent := ()
  close := id
  total := fun _ _ => ()
  fieldFrames := 2
  inlineFrames := 2
  spreadFrames := 2

def Pass.value (p : Pass E R) (doc : Document) : R :=
  match p.run doc with
  | some (.ok r,_) => r
  | _ => p.absent

def calculateDepth (doc : Document) : Nat := depthPass.value doc
def calculateComplexity (doc : Document) (costs : GoString → Option Int) : Int := (complexityPass costs).value doc

def Pass.refusal (p : Pass E R) (doc : Document) : Option E :=
  match p.run doc with
  | some (.error e,_) => some e
  | _ => none

def isIntrospectionQuery (doc : Document) : Bool := (introspectionPass.refusal doc).isSome
def checkFieldAuth (doc : Document) (need : GoString → Option GoString) (have' : GoString → Bool) : Option GoString :=
  (authPass need have').refusal doc

def maxGraphQLNesting : Nat := 1000

def isOpen (b : UInt8) : Bool := b == byte '{' || b == byte '[' || b == byte '('
def isClose (b : UInt8) : Bool := b == byte '}' || b == byte ']' || b == byte ')'
def isBreak (b : UInt8) : Bool := b == byte '\n' || b == byte '\r'

def blockEnd : GoString → GoString
  | [] => []
  | 92 :: 34 :: 34 :: 34 :: rest => blockEnd rest
  | 34 :: 34 :: 34 :: rest => rest
  | _ :: rest => blockEnd rest

def plainEnd : GoString → GoString
  | [] => []
  | [92] => []
  | 92 :: _ :: rest => plainEnd rest
  | b :: rest => if b = 34 ∨ isBreak b then rest else plainEnd rest

def graphQLStringEnd : GoString → GoString
  | 34 :: 34 :: rest => blockEnd rest
  | rest => plainEnd rest

-- The loop of graphQLNestingExceeds; every round takes a byte at least.
def exceedsFrom (limit : Nat) : Nat → Nat → GoString → Bool
  | 0,_,_ => false
  | _ + 1,_,[] => false
  | fuel + 1,depth,b :: rest =>
    if isOpen b then limit < depth + 1 || exceedsFrom limit fuel (depth + 1) rest
    else if isClose b then exceedsFrom limit fuel (depth - 1) rest
    else if b = byte '#' then exceedsFrom limit fuel depth (rest.dropWhile fun c => !isBreak c)
    else if b = byte '"' then exceedsFrom limit fuel depth (graphQLStringEnd rest)
    else exceedsFrom limit fuel depth rest

def graphQLNestingExceeds (query : GoString) (limit : Nat) : Bool := exceedsFrom limit query.length 0 query

inductive StringTail : GoString → GoString → Prop where
  | close : StringTail (34 :: rest) rest
  | escaped : StringTail text rest → StringTail (92 :: b :: text) rest
  | byte : b ≠ 34 → b ≠ 92 → isBreak b = false → StringTail text rest → StringTail (b :: text) rest

inductive BlockTail : GoString → GoString → Prop where
  | close : BlockTail (34 :: 34 :: 34 :: rest) rest
  | escaped : BlockTail text rest → BlockTail (92 :: 34 :: 34 :: 34 :: text) rest
  | byte : ¬ [34,34,34] <+: b :: text → ¬ [92,34,34,34] <+: b :: text → BlockTail text rest → BlockTail (b :: text) rest

-- The brackets among the tokens read off a text so far, and what is left of it where the lexer stopped.
inductive Lexed : GoString → List Bool → GoString → Prop where
  | stop : Lexed text [] text
  | opens : isOpen b → Lexed rest bs left → Lexed (b :: rest) (true :: bs) left
  | closes : isClose b → Lexed rest bs left → Lexed (b :: rest) (false :: bs) left
  | comment : (∀ c ∈ text, isBreak c = false) → (∀ c ∈ rest.head?, isBreak c) → Lexed rest bs left →
      Lexed (byte '#' :: (text ++ rest)) bs left
  | string : ¬ [34,34] <+: text → StringTail text rest → Lexed rest bs left → Lexed (byte '"' :: text) bs left
  | block : BlockTail text rest → Lexed rest bs left → Lexed (byte '"' :: 34 :: 34 :: text) bs left
  | other : isOpen b = false → isClose b = false → b ≠ byte '#' → b ≠ byte '"' → Lexed rest bs left → Lexed (b :: rest) bs left

def SelectionSet.nesting : SelectionSet → Nat
  | .nil => 0
  | .field _ sub rest => max (sub.nesting + 1) rest.nesting
  | .inline sub rest => max (sub.nesting + 1) rest.nesting
  | .spread _ rest => rest.nesting

def deepest : Nat → List Bool → Nat
  | depth,[] => depth
  | depth,true :: rest => deepest (depth + 1) rest
  | depth,false :: rest => max depth (deepest (depth - 1) rest)

theorem deepest_from (depth : Nat) (bs : List Bool) : depth ≤ deepest depth bs := by
  induction bs generalizing depth with
  | nil => exact le_rfl
  | cons b rest ih =>
    cases b with
    | true => exact le_trans (le_succ _) (ih (depth + 1))
    | false => exact le_max_left _ _

theorem balance_deepest (depth : Nat) (starts : part <+: bs) : part.count true + depth ≤ part.count false + deepest depth bs := by
  induction bs generalizing depth part with
  | nil => rw [prefix_nil.mp starts]; exact le_rfl
  | cons b rest ih =>
    cases part with
    | nil => simpa using deepest_from depth (b :: rest)
    | cons c part =>
      obtain ⟨rfl,inside⟩ := cons_prefix_cons.mp starts
      cases c with
      | true =>
        have later := ih (depth + 1) inside
        simp only [count_cons_self,count_cons_of_ne (show true ≠ false by decide),deepest]
        omega
      | false =>
        have later := ih (depth - 1) inside
        simp only [count_cons_self,count_cons_of_ne (show false ≠ true by decide),deepest]
        omega

theorem plainEnd_tail (tail : StringTail text rest) : plainEnd text = rest := by
  induction tail with
  | close => rfl
  | escaped _ ih => exact ih
  | byte quote slash unbroken _ ih =>
    unfold plainEnd
    split
    · contradiction
    · rename_i same; exact absurd (List.cons.inj same).1 slash
    · rename_i same; exact absurd (List.cons.inj same).1 slash
    rename_i same
    obtain ⟨rfl,rfl⟩ := List.cons.inj same
    rw [if_neg (by simp [quote,unbroken])]
    exact ih

theorem blockEnd_tail (tail : BlockTail text rest) : blockEnd text = rest := by
  induction tail with
  | close => rfl
  | escaped _ ih => exact ih
  | byte quotes escape _ ih =>
    unfold blockEnd
    split
    · contradiction
    · rename_i same; exact absurd ⟨_,same.symm⟩ escape
    · rename_i same; exact absurd ⟨_,same.symm⟩ quotes
    · rename_i same
      obtain ⟨rfl,rfl⟩ := List.cons.inj same
      exact ih

theorem stringEnd_tail (plain : ¬ [34,34] <+: text) (tail : StringTail text rest) : graphQLStringEnd text = rest := by
  unfold graphQLStringEnd
  split
  · exact absurd ⟨_,rfl⟩ plain
  · exact plainEnd_tail tail

theorem StringTail.shorter (tail : StringTail text rest) : rest.length < text.length := by
  induction tail with
  | close => exact lt_succ_self _
  | escaped _ ih => exact lt_trans ih (by grind)
  | byte _ _ _ _ ih => exact lt_trans ih (by simp)

theorem BlockTail.shorter (tail : BlockTail text rest) : rest.length < text.length := by
  induction tail with
  | close => simp; omega
  | escaped _ ih => exact lt_trans ih (by grind)
  | byte _ _ _ ih => exact lt_trans ih (by simp)

theorem dropWhile_comment (text : GoString) (plain : ∀ c ∈ text, isBreak c = false) (ends : ∀ c ∈ rest.head?, isBreak c) :
    (text ++ rest).dropWhile (fun c => !isBreak c) = rest := by
  rw [dropWhile_append_of_pos (by simpa using plain)]
  cases rest with
  | nil => rfl
  | cons c rest => have stop := ends c rfl; simp [stop]

theorem close_unopened : ∀ b, isClose b → isOpen b = false := every_byte (by decide +kernel)

theorem spare_round {rest : GoString} (enough : (b :: rest).length ≤ fuel) : ∃ left, fuel = left + 1 ∧ rest.length ≤ left := by
  cases fuel with
  | zero => simp at enough
  | succ fuel => exact ⟨fuel,rfl,by simpa using enough⟩

theorem exceeds_lexed (lexed : Lexed text bs left) (fuel depth : Nat) (enough : text.length ≤ fuel) (under : depth ≤ limit)
    (passed : exceedsFrom limit fuel depth text = false) : deepest depth bs ≤ limit := by
  induction lexed generalizing fuel depth with
  | stop => exact under
  | opens opening _ ih =>
    obtain ⟨fuel,rfl,spare⟩ := spare_round enough
    simp only [exceedsFrom,opening,if_true,Bool.or_eq_false_iff,decide_eq_false_iff_not] at passed
    exact ih fuel (depth + 1) spare (by omega) passed.2
  | closes closing _ ih =>
    rename_i b rest bs left _
    obtain ⟨fuel,rfl,spare⟩ := spare_round enough
    have other := close_unopened b closing
    simp only [exceedsFrom,other,closing,if_true,Bool.false_eq_true,if_false] at passed
    have below := ih fuel (depth - 1) spare (by omega) passed
    simp only [deepest]
    omega
  | comment plain ends _ ih =>
    obtain ⟨fuel,rfl,spare⟩ := spare_round enough
    have step : exceedsFrom limit fuel depth _ = false := passed
    rw [dropWhile_comment _ plain ends] at step
    exact ih fuel depth (by simp at spare; omega) under step
  | string plain tail _ ih =>
    obtain ⟨fuel,rfl,spare⟩ := spare_round enough
    have step : exceedsFrom limit fuel depth (graphQLStringEnd _) = false := passed
    rw [stringEnd_tail plain tail] at step
    exact ih fuel depth (tail.shorter.le.trans spare) under step
  | block tail _ ih =>
    obtain ⟨fuel,rfl,spare⟩ := spare_round enough
    have step : exceedsFrom limit fuel depth (blockEnd _) = false := passed
    rw [blockEnd_tail tail] at step
    have shorter := tail.shorter
    exact ih fuel depth (by simp at spare; omega) under step
  | other unopened unclosed uncommented unquoted _ ih =>
    obtain ⟨fuel,rfl,spare⟩ := spare_round enough
    simp only [exceedsFrom,unopened,unclosed,uncommented,unquoted,Bool.false_eq_true,if_false] at passed
    exact ih fuel depth spare under passed

theorem prescan_bounds (passed : graphQLNestingExceeds text limit = false) (lexed : Lexed text bs left) :
    ∀ part, part <+: bs → part.count true ≤ part.count false + limit := by
  intro part starts
  have under := exceeds_lexed lexed text.length 0 le_rfl (zero_le _) passed
  exact Nat.le_trans (balance_deepest 0 starts) (Nat.add_le_add_left under _)

theorem prescan_bounds_quoted : graphQLNestingExceeds (lit "(\")\"[") 2 = false ∧ [true,true].count true ≤ [true,true].count false + 2 := by
  have passed : graphQLNestingExceeds (lit "(\")\"[") 2 = false := by decide
  have lexed : Lexed (lit "(\")\"[") [true,true] [] :=
    .opens (by decide) (.string (by decide) (.byte (by decide) (by decide) (by decide) .close) (.opens (by decide) .stop))
  exact ⟨passed,prescan_bounds passed lexed _ (prefix_refl _)⟩

-- Any function; selection sets stand in braces and nest no deeper than these.
structure Parser where
  parse : GoString → Except GoString Document
  braces : ∀ query doc, parse query = .ok doc → ∃ bs, Lexed query bs [] ∧
    (∀ op ∈ doc.operations, op.nesting ≤ deepest 0 bs) ∧ ∀ f ∈ doc.fragments, f.2.nesting ≤ deepest 0 bs

def parseGraphQLQuery (parser : Parser) (query : GoString) : Except GoString Document :=
  if graphQLNestingExceeds query maxGraphQLNesting then .error (lit "query nests more than 1000 levels deep")
  else parser.parse query

theorem accepted_nesting (accepted : parseGraphQLQuery parser query = .ok doc) :
    (∀ op ∈ doc.operations, op.nesting ≤ maxGraphQLNesting) ∧ ∀ f ∈ doc.fragments, f.2.nesting ≤ maxGraphQLNesting := by
  unfold parseGraphQLQuery at accepted
  split at accepted
  · cases accepted
  rename_i passed
  obtain ⟨bs,lexed,operations,fragments⟩ := parser.braces query doc accepted
  have under := exceeds_lexed lexed query.length 0 le_rfl (zero_le _) (Bool.eq_false_iff.mpr passed)
  exact ⟨fun op mem => le_trans (operations op mem) under,fun f mem => le_trans (fragments f mem) under⟩

end Gateon.Graphql
