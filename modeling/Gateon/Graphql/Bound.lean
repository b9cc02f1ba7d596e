import Gateon.Graphql.Query

namespace Gateon.Graphql
open Go DepthFirst List Option

namespace Pass
variable {E R : Type} (p : Pass E R)

def items : SelectionSet → List (Item GoString)
  | .nil => []
  | .field name sub rest =>
    if (p.refuses name).isSome then [.stop] else (if p.descends sub then items sub else []) ++ items rest
  | .inline sub rest => items sub ++ items rest
  | .spread name rest => .visit name :: items rest

variable (doc : Document)

def top : List (Item GoString) := doc.operations.flatMap (items p)
def next (defs : GoString → Option SelectionSet) (name : GoString) : Option (List (Item GoString)) :=
  (defs name).map (items p)
def search : Option (Found GoString) :=
  scan (enter (next p doc.defs) doc.fragments.length) (top p doc) []
def chain : Nat := ((search p doc).map Found.height).getD 0

end Pass

section
variable {E R : Type} {p : Pass E R}

def Known (t : Trail R) : Prop := ∀ n, n ∈ t.entered ↔ n ∈ t.open' ∨ (t.memo.lookup n).isSome

-- The walk enters what the search finds, at most `width` calls to a fragment.
def Agrees (width low high : Nat) (t : Trail R) (out : Option (Except E R × Trail R)) (found : Option (Found GoString)) : Prop :=
  ∀ r, found = some r → ∃ res t', out = some (res,t') ∧ t'.entered = r.seen ∧ t'.open' = t.open' ∧
    (match res with
      | .ok _ => r.stopped = false ∧ Known t'
      | .error _ => r.stopped) ∧
    t.peak ≤ t'.peak ∧ (0 < r.height → low + r.height ≤ t'.peak) ∧ t'.peak ≤ max t.peak (high + r.height * width)

theorem Agrees.mono (agrees : Agrees width low high t out found) (lower : low' ≤ low := by omega) (higher : high ≤ high' := by omega) :
    Agrees width low' high' t out found := by
  intro r ran
  obtain ⟨res,t',walked,entered,open',ends,grows,least,most⟩ := agrees r ran
  refine ⟨res,t',walked,entered,open',ends,grows,?_,?_⟩
  · intro positive
    have bound := least positive
    omega
  · omega

theorem Agrees.reach (agrees : Agrees width low high (t.reach level) out found) (lower : low' ≤ low := by omega)
    (higher : high ≤ high' := by omega) (within : level ≤ high' := by omega) : Agrees width low' high' t out found := by
  intro r ran
  obtain ⟨res,t',walked,entered,open',ends,grows,least,most⟩ := agrees.mono lower higher r ran
  simp only [Trail.reach] at grows most
  refine ⟨res,t',walked,entered,open',ends,?_,least,?_⟩
  · omega
  · omega

theorem Agrees.andThen {next : R → Trail R → Option (Except E R × Trail R)} (later : List GoString → Option (Found GoString))
    (first : Agrees width low high t out found) (second : ∀ r t', Known t' → Agrees width low high t' (next r t') (later t'.entered)) :
    Agrees width low high t (out.bind fun
        | (.error e,t') => some (.error e,t')
        | (.ok r,t') => next r t') (found.bind fun a => if a.stopped then some a
        else (later a.seen).map fun b => ⟨b.seen,max a.height b.height,b.stopped⟩) := by
  intro r ran
  obtain ⟨a,start,rest⟩ := bind_eq_some_iff.mp ran
  obtain ⟨res,t',walked,entered,open',ends,grows,least,most⟩ := first a start
  cases res with
  | error e =>
    rw [if_pos ends] at rest
    cases rest
    exact ⟨.error e,t',by rw [walked]; rfl,entered,open',ends,grows,least,most⟩
  | ok value =>
    rw [if_neg (by simp [ends.1])] at rest
    obtain ⟨b,middle,last⟩ := map_eq_some_iff.mp rest
    rw [← entered] at middle
    obtain ⟨res',t'',walked',entered',open'',ends',grows',least',most'⟩ := second value t' ends.2 b middle
    subst last
    refine ⟨res',t'',by rw [walked]; exact walked',entered',open''.trans open',ends',le_trans grows grows',?_,?_⟩
    · dsimp only
      intro positive
      rcases le_total a.height b.height with small | large
      · rw [max_eq_right small] at positive ⊢; exact least' positive
      · rw [max_eq_left large] at positive ⊢; exact le_trans (least positive) grows'
    · dsimp only
      have widen : a.height * width ≤ max a.height b.height * width := Nat.mul_le_mul_right _ (Nat.le_max_left _ _)
      have widen' : b.height * width ≤ max a.height b.height * width := Nat.mul_le_mul_right _ (Nat.le_max_right _ _)
      omega

def Pass.width (p : Pass E R) (nested : Nat) : Nat := max p.fieldFrames p.inlineFrames * nested + p.spreadFrames + 1

theorem frames_nested (frames a b : Nat) : frames * a + frames ≤ frames * max (a+1) b ∧ frames * b ≤ frames * max (a+1) b := by
  rw [← Nat.mul_succ]
  exact ⟨Nat.mul_le_mul_left _ (Nat.le_max_left ..),Nat.mul_le_mul_left _ (Nat.le_max_right ..)⟩

theorem walk_agrees (follows : ∀ name level t, Known t → Agrees width level (level + 1) t (into name level t) (search name t.entered))
    (ss : SelectionSet) (level : Nat) (acc : R) (t : Trail R) (known : Known t) :
    Agrees width level (level + max p.fieldFrames p.inlineFrames * ss.nesting + p.spreadFrames + 1) t
      (p.walk into level ss acc t) (scan search (p.items ss) t.entered) := by
  induction ss generalizing level acc t with
  | nil =>
    intro r ran
    cases ran
    refine ⟨_,t,rfl,rfl,rfl,⟨rfl,known⟩,le_rfl,nofun,?_⟩
    exact le_max_left _ _
  | field name sub rest subIh restIh =>
    have nests : (SelectionSet.field name sub rest).nesting = max (sub.nesting+1) rest.nesting := rfl
    obtain ⟨inner,outer⟩ := frames_nested (max p.fieldFrames p.inlineFrames) sub.nesting rest.nesting
    rw [nests]
    unfold Pass.walk Pass.items
    cases refused : p.refuses name with
    | some e =>
      intro r ran
      cases ran
      exact ⟨.error e,t,rfl,rfl,rfl,rfl,le_rfl,nofun,le_max_left _ _⟩
    | none =>
      cases descends : p.descends sub with
      | false => exact (restIh level (p.field name acc none) t known).mono
      | true =>
        simp only [isSome_none,Bool.false_eq_true,if_false,if_true]
        rw [scan_append]
        apply Agrees.andThen (scan search (p.items rest))
        · exact (subIh (level + p.fieldFrames) p.init (t.reach (level + p.fieldFrames)) known).reach
        · intro r t' known'; exact (restIh level (p.field name acc (some r)) t' known').mono
  | inline sub rest subIh restIh =>
    have nests : (SelectionSet.inline sub rest).nesting = max (sub.nesting+1) rest.nesting := rfl
    obtain ⟨inner,outer⟩ := frames_nested (max p.fieldFrames p.inlineFrames) sub.nesting rest.nesting
    rw [nests]
    rw [Pass.items,scan_append]
    apply Agrees.andThen (scan search (p.items rest))
    · exact (subIh (level + p.inlineFrames) p.init (t.reach (level + p.inlineFrames)) known).reach
    · intro r t' known'; exact (restIh level (p.inline acc r) t' known').mono
  | spread name rest restIh =>
    have same : (SelectionSet.spread name rest).nesting = rest.nesting := rfl
    rw [same]
    apply Agrees.andThen (scan search (p.items rest))
    · exact (follows name (level + p.spreadFrames) (t.reach (level + p.spreadFrames)) known).reach
    · intro r t' known'; exact restIh level (p.spread acc r) t' known'

theorem Agrees.skip (known : Known t) (r : R) (reached : Nat) (within : reached ≤ level + 1) :
    Agrees (E := E) width level (level + 1) t (some (.ok r,t.reach reached)) (some ⟨t.entered,0,false⟩) := by
  intro found ran
  cases ran
  refine ⟨.ok r,t.reach reached,rfl,rfl,rfl,⟨rfl,known⟩,le_max_left _ _,nofun,?_⟩
  simp only [Trail.reach]
  omega

theorem reach_zero (t : Trail R) : t.reach 0 = t := by
  simp [Trail.reach]

theorem into_cases (defs : GoString → Option SelectionSet) (fuel : Nat) (name : GoString) (level : Nat) (t : Trail R) (known : Known t) :
    (∃ r reached, reached ≤ level + 1 ∧ p.into defs fuel name level t = some (.ok r,t.reach reached) ∧
      enter (p.next defs) fuel name t.entered = some ⟨t.entered,0,false⟩) ∨
    name ∉ t.entered ∧ ∃ body, defs name = some body ∧ p.next defs name = some (p.items body) := by
  unfold Pass.into
  cases kept : t.memo.lookup name with
  | some r =>
    refine .inl ⟨r,0,Nat.zero_le _,?_,enter_seen ((known name).mpr (.inr (by simp [kept]))) fuel⟩
    rw [reach_zero]
  | none =>
    by_cases held : name ∈ t.open'
    · exact .inl ⟨p.absent,level + 1,le_rfl,if_pos held,enter_seen ((known name).mpr (.inl held)) fuel⟩
    have fresh : name ∉ t.entered := by
      rw [known name]
      simp [held,kept]
    simp only [if_neg held]
    cases there : defs name with
    | none => exact .inl ⟨p.absent,level + 1,le_rfl,rfl,enter_unknown fresh (by simp [Pass.next,there]) fuel⟩
    | some body => exact .inr ⟨fresh,body,rfl,by simp [Pass.next,there]⟩

theorem into_body (fresh : name ∉ t.entered) (known : Known t) (there : defs name = some body) :
    p.into defs (fuel + 1) name level t =
      (p.walk (p.into defs fuel) (level + 1) body p.init
        {t.reach (level + 1) with open' := name :: t.open',entered := t.entered ++ [name]}).map fun
        | (.error e,t') => (.error e,{t' with open' := t.open'})
        | (.ok r,t') => (.ok r,{t' with open' := t.open',memo := (name,r) :: t'.memo}) := by
  have missing := (not_congr (known name)).mp fresh
  rw [not_or] at missing
  have unkept : t.memo.lookup name = none := not_isSome_iff_eq_none.mp missing.2
  rw [Pass.into.eq_def]
  simp only [unkept,if_neg missing.1,there] <;> rfl

theorem into_agrees (defs : GoString → Option SelectionSet) (nested : Nat) (flat : ∀ name body, defs name = some body → body.nesting ≤ nested)
    (fuel : Nat) (name : GoString) (level : Nat) (t : Trail R) (known : Known t) :
    Agrees (p.width nested) level (level + 1) t (p.into defs fuel name level t) (enter (p.next defs) fuel name t.entered) := by
  induction fuel generalizing name level t with
  | zero =>
    rcases into_cases defs 0 name level t known with ⟨r,reached,within,walked,skips⟩ | ⟨fresh,body,there,next⟩
    · rw [walked,skips]; exact .skip known r reached within
    · rw [enter_spent fresh next]; exact nofun
  | succ fuel ih =>
    rcases into_cases defs (fuel + 1) name level t known with ⟨r,reached,within,walked,skips⟩ | ⟨fresh,body,there,next⟩
    · rw [walked,skips]; exact .skip known r reached within
    rw [enter_fresh fresh next,into_body fresh known there]
    intro r ran
    obtain ⟨below,searched,rfl⟩ := map_eq_some_iff.mp ran
    have known' : Known {t.reach (level + 1) with open' := name :: t.open',entered := t.entered ++ [name]} := by
      intro n
      simp only [mem_append,mem_cons]
      rw [known n]
      tauto
    obtain ⟨res,t',walked,entered,open',ends,grows,least,most⟩ := walk_agrees (p := p) ih
      body (level + 1) p.init _ known' below searched
    simp only [Trail.reach] at grows most
    have small := flat name body there
    have widen : max p.fieldFrames p.inlineFrames * body.nesting ≤ max p.fieldFrames p.inlineFrames * nested :=
      Nat.mul_le_mul_left _ small
    have room : (below.height + 1) * p.width nested =
        below.height * p.width nested + (max p.fieldFrames p.inlineFrames * nested + p.spreadFrames + 1) := Nat.succ_mul _ _
    have grows' : t.peak ≤ t'.peak := by omega
    have least' : 0 < below.height + 1 → level + (below.height + 1) ≤ t'.peak := by
      intro _
      rcases eq_zero_or_pos below.height with flat | deep
      · omega
      · have bound := least deep; omega
    have most' : t'.peak ≤ max t.peak (level + 1 + (below.height + 1) * p.width nested) := by
      rw [room]
      omega
    rw [walked]
    cases res with
    | error e => exact ⟨_,_,rfl,entered,rfl,ends,grows',least',most'⟩
    | ok value =>
      refine ⟨_,_,rfl,entered,rfl,⟨ends.1,?_⟩,grows',least',most'⟩
      intro n
      have before := ends.2 n
      rw [open'] at before
      rw [before]
      by_cases same : n = name <;> simp [same]

theorem operations_agree (follows : ∀ name level t, Known t → Agrees (p.width nested) level (level + 1) t (into name level t) (search name t.entered))
    (ops : List SelectionSet) (flat : ∀ op ∈ ops, op.nesting ≤ nested) (acc : R) (t : Trail R) (known : Known t) :
    Agrees (p.width nested) 2 (2 + p.width nested) t (p.operations into ops acc t) (scan search (ops.flatMap p.items) t.entered) := by
  induction ops generalizing acc t with
  | nil =>
    intro r ran
    cases ran
    exact ⟨_,t,rfl,rfl,rfl,⟨rfl,known⟩,le_rfl,nofun,le_max_left _ _⟩
  | cons op ops ih =>
    have small := flat op mem_cons_self
    have widen : max p.fieldFrames p.inlineFrames * op.nesting ≤ max p.fieldFrames p.inlineFrames * nested :=
      Nat.mul_le_mul_left _ small
    have width : p.width nested = max p.fieldFrames p.inlineFrames * nested + p.spreadFrames + 1 := rfl
    rw [flatMap_cons,scan_append]
    apply Agrees.andThen (scan search (ops.flatMap p.items))
    · exact (walk_agrees follows op 2 p.init (t.reach 2) known).reach
    · intro r t' known'; exact ih (forall_mem_cons.mp flat).2 (p.total acc r) t' known'

theorem defs_mem {doc : Document} (there : doc.defs name = some body) : (name,body) ∈ doc.fragments := by
  obtain ⟨f,found,rfl⟩ := map_eq_some_iff.mp there
  have named : f.1 = name := by simpa using find?_some found
  rw [← named]
  exact mem_reverse.mp (mem_of_find?_eq_some found)

theorem search_found (p : Pass E R) (doc : Document) :
    ∃ found, p.search doc = some found ∧ Searched (p.next doc.defs) doc.names (p.top doc) [] found := by
  have names : ∀ n, p.next doc.defs n ≠ none → n ∈ doc.names := by
    intro n there
    cases body : doc.defs n with
    | none => simp [Pass.next,body] at there
    | some ss => exact mem_map_of_mem (defs_mem body)
  have small : left doc.names [] ≤ doc.fragments.length := by
    have whole := length_filter_le (· ∉ ([] : List GoString)) doc.names
    rwa [Document.names,length_map] at whole
  exact scan_searched (enter_searched (p.next doc.defs) doc.names names doc.fragments.length)
    (fun seen more => le_trans (left_append doc.names seen more)) (p.top doc) [] nodup_nil small

variable (p : Pass E R) (doc : Document) (nested : Nat) (flat : ∀ op ∈ doc.operations, op.nesting ≤ nested) (flat' : ∀ f ∈ doc.fragments, f.2.nesting ≤ nested)
include flat flat'

theorem run_agrees : Agrees (p.width nested) 2 (2 + p.width nested) ⟨[],[],[],1⟩ (p.run doc) (p.search doc) :=
  operations_agree (into_agrees doc.defs nested (fun name body there => flat' _ (defs_mem there)) doc.fragments.length) doc.operations flat
    p.absent ⟨[],[],[],1⟩ (by simp [Known])

theorem run_spec : ∃ res t, p.run doc = some (res,t) ∧ t.entered.Nodup ∧ (∀ n ∈ t.entered, n ∈ doc.names) ∧
      p.chain doc ≤ t.peak ∧ t.peak ≤ 2 + (p.chain doc + 1) * p.width nested := by
  obtain ⟨found,ran,searched⟩ := search_found p doc
  obtain ⟨more,extends',inside⟩ := searched.more
  have chain : p.chain doc = found.height := by simp [Pass.chain,ran]
  obtain ⟨res,t,walked,entered,_,_,grows,least,most⟩ := run_agrees p doc nested flat flat' found ran
  refine ⟨res,t,walked,entered ▸ searched.nodup,?_,?_,?_⟩
  · intro n mem
    rw [entered,extends'] at mem
    exact inside n mem
  · rw [chain]
    rcases eq_zero_or_pos found.height with flat | deep
    · omega
    · have bound := least deep; omega
  · rw [chain,Nat.succ_mul]
    simp only at most
    omega

end

structure Check where
  query : GoString
  costs : GoString → Option Int
  need : GoString → Option GoString
  have' : GoString → Bool

section
variable (p : Pass E R)

def Pass.callDepth (doc : Document) : Nat := ((p.run doc).map fun out => out.2.peak).getD 0
def Check.callDepths (x : Check) (doc : Document) : List Nat :=
  [depthPass.callDepth doc,(complexityPass x.costs).callDepth doc,introspectionPass.callDepth doc,(authPass x.need x.have').callDepth doc]
def Check.chains (x : Check) (doc : Document) : List Nat :=
  [depthPass.chain doc,(complexityPass x.costs).chain doc,introspectionPass.chain doc,(authPass x.need x.have').chain doc]
def Pass.Ends (doc : Document) : Prop :=
  ∃ res t, p.run doc = some (res,t) ∧ t.entered.Nodup ∧ ∀ n ∈ t.entered, n ∈ doc.names

variable (accepted : parseGraphQLQuery parser query = .ok doc)
include accepted

theorem accepted_ends : p.Ends doc := by
  obtain ⟨flat,flat'⟩ := accepted_nesting accepted
  obtain ⟨res,t,ran,nodup,inside,_⟩ := run_spec p doc maxGraphQLNesting flat flat'
  exact ⟨res,t,ran,nodup,inside⟩

theorem accepted_depth (narrow : p.width maxGraphQLNesting ≤ 2003) :
    p.chain doc ≤ p.callDepth doc ∧ p.callDepth doc ≤ 2 + (p.chain doc + 1) * 2003 := by
  obtain ⟨flat,flat'⟩ := accepted_nesting accepted
  obtain ⟨res,t,ran,_,_,least,most⟩ := run_spec p doc maxGraphQLNesting flat flat'
  have peak : p.callDepth doc = t.peak := by simp [Pass.callDepth,ran]
  rw [peak]
  refine ⟨least,le_trans most ?_⟩
  exact Nat.add_le_add_left (Nat.mul_le_mul_left _ narrow) 2

end

theorem Check.depths (x : Check) (accepted : parseGraphQLQuery parser x.query = .ok doc) :
    (∀ c, (∀ n ∈ x.chains doc, n ≤ c) → ∀ n ∈ x.callDepths doc, n ≤ 2 + (c + 1) * 2003) ∧
      ∀ k, (∀ n ∈ x.callDepths doc, n ≤ k) → ∀ n ∈ x.chains doc, n ≤ k := by
  have depth := accepted_depth depthPass accepted (by decide)
  have complexity := accepted_depth (complexityPass x.costs) accepted (by simp [Pass.width,complexityPass,maxGraphQLNesting])
  have introspection := accepted_depth introspectionPass accepted (by decide)
  have auth := accepted_depth (authPass x.need x.have') accepted (by simp [Pass.width,authPass,maxGraphQLNesting])
  simp only [Check.chains,Check.callDepths,forall_mem_cons,not_mem_nil,false_implies,implies_true,and_true]
  constructor
  · intro c bounds; omega
  · intro k bounds; omega

theorem walks_bounded (parser : Parser) : (∀ query doc, parseGraphQLQuery parser query = .ok doc → ∀ costs need have',
      depthPass.Ends doc ∧ (complexityPass costs).Ends doc ∧ introspectionPass.Ends doc ∧ (authPass need have').Ends doc) ∧
    ∀ checks : Set Check,
      (∃ k, ∀ x ∈ checks, ∀ doc, parseGraphQLQuery parser x.query = .ok doc → ∀ n ∈ x.callDepths doc, n ≤ k * maxGraphQLNesting) ↔
        ∃ c, ∀ x ∈ checks, ∀ doc, parseGraphQLQuery parser x.query = .ok doc → ∀ n ∈ x.chains doc, n ≤ c := by
  constructor
  · intro query doc accepted costs need have'
    exact ⟨accepted_ends _ accepted,accepted_ends _ accepted,accepted_ends _ accepted,accepted_ends _ accepted⟩
  intro checks
  constructor
  · rintro ⟨k,bounded⟩
    refine ⟨k * maxGraphQLNesting,?_⟩
    intro x mem doc accepted
    exact (x.depths accepted).2 _ (bounded x mem doc accepted)
  · rintro ⟨c,bounded⟩
    refine ⟨2 + (c + 1) * 2003,?_⟩
    intro x mem doc accepted n held
    have bound := (x.depths accepted).1 c (bounded x mem doc accepted) n held
    exact bound.trans (Nat.le_mul_of_pos_right _ (by decide))

-- A parser of the part of GraphQL without arguments, strings and comments.
inductive Token where
  | opens
  | closes
  | dot
  | name (text : GoString)
deriving DecidableEq

def isNameByte (b : UInt8) : Bool := isAlnum b || b == byte '_'
def named (text : GoString) : List Token := if text = [] then [] else [.name text]

def punctuator (b : UInt8) : Option (List Token) :=
  if b = byte '{' then some [.opens]
  else if b = byte '}' then some [.closes]
  else if b = byte '.' then some [.dot]
  else if b = byte ' ' then some []
  else none

def tokens : GoString → GoString → Option (List Token)
  | text,[] => some (named text)
  | text,b :: rest =>
    if isNameByte b then tokens (text ++ [b]) rest
    else (punctuator b).bind fun own => (tokens [] rest).map fun later => named text ++ own ++ later

def selections : Nat → List Token → Option (SelectionSet × List Token)
  | 0,_ => none
  | _ + 1,.closes :: rest => some (.nil,rest)
  | fuel + 1,.dot :: .dot :: .dot :: .opens :: rest =>
    (selections fuel rest).bind fun sub => (selections fuel sub.2).map fun later => (.inline sub.1 later.1,later.2)
  | fuel + 1,.dot :: .dot :: .dot :: .name name :: rest => (selections fuel rest).map fun later => (.spread name later.1,later.2)
  | fuel + 1,.name name :: .opens :: rest =>
    (selections fuel rest).bind fun sub => (selections fuel sub.2).map fun later => (.field name sub.1 later.1,later.2)
  | fuel + 1,.name name :: rest => (selections fuel rest).map fun later => (.field name .nil later.1,later.2)
  | _ + 1,_ => none

def definitions : Nat → List Token → Option Document
  | _,[] => some ⟨[],[]⟩
  | 0,_ => none
  | fuel + 1,.opens :: rest =>
    (selections (rest.length + 1) rest).bind fun set =>
      (definitions fuel set.2).map fun doc => {doc with operations := set.1 :: doc.operations}
  | fuel + 1,.name keyword :: .name name :: .name on :: .name _ :: .opens :: rest =>
    if keyword = lit "fragment" ∧ on = lit "on" then
      (selections (rest.length + 1) rest).bind fun set =>
        (definitions fuel set.2).map fun doc => {doc with fragments := (name,set.1) :: doc.fragments}
    else none
  | _ + 1,_ => none

section
variable (query : GoString)

def document : Option Document := (tokens [] query).bind fun ts => definitions ts.length ts
def brackets : List Bool :=
  query.filterMap fun b => if isOpen b then some true else if isClose b then some false else none
def plainText : Bool := query.all fun b => b != byte '#' && b != byte '"'

theorem brackets_lexed (plain : plainText query) : Lexed query (brackets query) [] := by
  induction query with
  | nil => exact .stop
  | cons b rest ih =>
    simp only [plainText,all_cons,Bool.and_eq_true,bne_iff_ne,ne_eq] at plain
    have later := ih plain.2
    unfold brackets
    rw [filterMap_cons]
    by_cases opening : isOpen b
    · simp only [opening,if_true]; exact .opens opening later
    by_cases closing : isClose b
    · simp only [opening,closing,if_true,Bool.false_eq_true,if_false]; exact .closes closing later
    · simp only [opening,closing,Bool.false_eq_true,if_false]
      exact .other (Bool.eq_false_iff.mpr opening) (Bool.eq_false_iff.mpr closing) plain.1.1 plain.1.2 later

end

def Document.within (doc : Document) (depth : Nat) : Prop :=
  (∀ op ∈ doc.operations, op.nesting ≤ depth) ∧ ∀ f ∈ doc.fragments, f.2.nesting ≤ depth

instance (doc : Document) (depth : Nat) : Decidable (doc.within depth) := inferInstanceAs (Decidable (_ ∧ _))

def sampleParser : Parser where
  parse := fun query =>
    match document query with
    | none => .error (lit "Unexpected token")
    | some doc => if plainText query ∧ doc.within (deepest 0 (brackets query)) then .ok doc else .error (lit "Unexpected token")
  braces := by
    intro query doc parsed
    split at parsed
    · cases parsed
    split at parsed
    · rename_i checked
      cases parsed
      exact ⟨brackets query,brackets_lexed query checked.1,checked.2⟩
    · cases parsed

def fragmentName (i : Nat) : GoString := List.replicate (i + 1) (byte 'f')

def fragmentText (i : Nat) : GoString :=
  lit "fragment" ++ byte ' ' :: (fragmentName i ++ byte ' ' :: (lit "on" ++ byte ' ' :: (lit "Q" ++
    byte '{' :: byte '.' :: byte '.' :: byte '.' :: (fragmentName (i + 1) ++ [byte '}']))))

section
variable (n : Nat)

def chainText : GoString :=
  byte '{' :: byte '.' :: byte '.' :: byte '.' :: (fragmentName 0 ++ byte '}' :: (List.range n).flatMap fragmentText)
def chainDocument : Document :=
  ⟨[.spread (fragmentName 0) .nil],(List.range n).map fun i => (fragmentName i,.spread (fragmentName (i + 1)) .nil)⟩
def fragmentTokens (i : Nat) : List Token :=
  [.name (lit "fragment"),.name (fragmentName i),.name (lit "on"),.name (lit "Q"),.opens,.dot,.dot,.dot,.name (fragmentName (i + 1)),.closes]

theorem tokens_names (word : GoString) (all : word.all isNameByte) (text rest : GoString) :
    tokens text (word ++ rest) = tokens (text ++ word) rest := by
  induction word generalizing text with
  | nil => simp
  | cons b word ih =>
    simp only [all_cons,Bool.and_eq_true] at all
    rw [cons_append,tokens,if_pos all.1,ih all.2,append_assoc]
    rfl

theorem tokens_mark (own : punctuator b = some t) (mark : isNameByte b = false) (text rest : GoString) :
    tokens text (b :: rest) = (tokens [] rest).map fun later => named text ++ t ++ later := by
  rw [tokens,if_neg (by simp [mark]),own]
  rfl

theorem fragmentName_bytes (i : Nat) : (fragmentName i).all isNameByte := by
  have letter : isNameByte (byte 'f') := by decide
  simp [fragmentName,letter]

theorem tokens_word (word : GoString) (all : word.all isNameByte) (filled : word ≠ []) (own : punctuator b = some t)
    (mark : isNameByte b = false) (rest : GoString) :
    tokens [] (word ++ b :: rest) = (tokens [] rest).map fun later => .name word :: (t ++ later) := by
  rw [tokens_names word all,tokens_mark own mark,named,if_neg (by simpa using filled)]
  rfl

theorem tokens_fragment (i : Nat) (rest : GoString) :
    tokens [] (fragmentText i ++ rest) = (tokens [] rest).map fun later => fragmentTokens i ++ later := by
  have bytes := fragmentName_bytes
  have filled : ∀ i, fragmentName i ≠ [] := fun i => nofun
  simp only [fragmentText,append_assoc,cons_append,nil_append]
  rw [tokens_word _ (by decide) (by decide) (t := []) rfl rfl,tokens_word _ (bytes i) (filled i) (t := []) rfl rfl,
    tokens_word _ (by decide) (by decide) (t := []) rfl rfl,tokens_word _ (by decide) (by decide) (t := [.opens]) rfl rfl,
    tokens_mark (t := [.dot]) rfl rfl,tokens_mark (t := [.dot]) rfl rfl,tokens_mark (t := [.dot]) rfl rfl,
    tokens_word _ (bytes (i + 1)) (filled (i + 1)) (t := [.closes]) rfl rfl]
  simp only [Option.map_map]
  rfl

section
variable (l : List Nat)

theorem tokens_fragments : tokens [] (l.flatMap fragmentText) = some (l.flatMap fragmentTokens) := by
  induction l with
  | nil => rfl
  | cons i l ih => rw [flatMap_cons,tokens_fragment,ih,flatMap_cons]; rfl

theorem tokens_chain : tokens [] (chainText n) =
      some (.opens :: .dot :: .dot :: .dot :: .name (fragmentName 0) :: .closes :: (List.range n).flatMap fragmentTokens) := by
  rw [chainText,tokens_mark (t := [.opens]) rfl rfl,tokens_mark (t := [.dot]) rfl rfl,tokens_mark (t := [.dot]) rfl rfl,
    tokens_mark (t := [.dot]) rfl rfl,tokens_word _ (fragmentName_bytes 0) nofun (t := [.closes]) rfl rfl,tokens_fragments]
  rfl

theorem definitions_fragments (fuel : Nat) (enough : l.length ≤ fuel) : definitions fuel (l.flatMap fragmentTokens) =
      some ⟨[],l.map fun i => (fragmentName i,.spread (fragmentName (i + 1)) .nil)⟩ := by
  induction l generalizing fuel with
  | nil => rw [flatMap_nil,definitions]; rfl
  | cons i l ih =>
    obtain ⟨fuel,rfl⟩ := Nat.exists_eq_add_of_le' (Nat.le_trans (Nat.le_add_left 1 l.length) enough)
    have later := ih fuel (Nat.le_of_succ_le_succ enough)
    simp only [flatMap_cons,fragmentTokens,cons_append,nil_append,definitions,and_self,if_true,length_cons,
      selections,map_some,bind_some,later,map_cons]

theorem document_chain : document (chainText n) = some (chainDocument n) := by
  have rest := definitions_fragments (range n) ((range n).flatMap fragmentTokens |>.length.add 5) (by
    simp [length_flatMap,fragmentTokens]
    omega)
  rw [document,tokens_chain,bind_some]
  simp only [length_cons,definitions,selections,map_some,bind_some,rest,chainDocument]

theorem exceeds_plain (plain : plainText text) (limit fuel depth : Nat) (exceeds : exceedsFrom limit fuel depth text) :
    limit < deepest depth (brackets text) := by
  induction fuel generalizing text depth with
  | zero => simp [exceedsFrom] at exceeds
  | succ fuel ih =>
    cases text with
    | nil => simp [exceedsFrom] at exceeds
    | cons b rest =>
      simp only [plainText,all_cons,Bool.and_eq_true,bne_iff_ne,ne_eq] at plain
      simp only [exceedsFrom,plain.1.1,plain.1.2,if_false] at exceeds
      unfold brackets
      rw [filterMap_cons]
      split at exceeds
      · rename_i opening
        simp only [opening,if_true]
        rcases Bool.or_eq_true_iff.mp exceeds with now | later
        · exact lt_of_lt_of_le (of_decide_eq_true now) (deepest_from _ _)
        · exact ih plain.2 _ later
      · rename_i opening
        split at exceeds
        · rename_i closing
          simp only [opening,closing,if_true,Bool.false_eq_true,if_false]
          exact lt_of_lt_of_le (ih plain.2 _ exceeds) (le_max_right _ _)
        · rename_i closing
          simp only [opening,closing,Bool.false_eq_true,if_false]
          exact ih plain.2 _ exceeds

theorem brackets_append (a b : GoString) : brackets (a ++ b) = brackets a ++ brackets b := filterMap_append ..

theorem brackets_fragmentName (i : Nat) : brackets (fragmentName i) = [] := by
  induction i with
  | zero => rfl
  | succ i ih => exact ih

theorem fragment_parts (i : Nat) :
    fragmentText i = lit "fragment " ++ (fragmentName i ++ (lit " on Q\x7b..." ++ (fragmentName (i + 1) ++ lit "\x7d"))) := rfl

theorem brackets_fragmentText (i : Nat) : brackets (fragmentText i) = [true,false] := by
  rw [fragment_parts,brackets_append,brackets_append,brackets_append,brackets_append,brackets_fragmentName,brackets_fragmentName]
  decide

theorem plain_fragmentName (i : Nat) : plainText (fragmentName i) := by
  have letter : plainText [byte 'f'] := by decide
  simpa [plainText,fragmentName] using letter

theorem deepest_chain : deepest 0 (brackets (l.flatMap fragmentText)) ≤ 1 := by
  induction l with
  | nil => decide
  | cons i l ih => rw [flatMap_cons,brackets_append,brackets_fragmentText]; simpa [deepest] using ih

theorem plain_append (a b : GoString) : plainText (a ++ b) = (plainText a && plainText b) := all_append

theorem plain_fragmentText (i : Nat) : plainText (fragmentText i) := by
  rw [fragment_parts,plain_append,plain_append,plain_append,plain_append,plain_fragmentName,plain_fragmentName]
  decide

theorem plain_fragments : plainText (l.flatMap fragmentText) :=
  all_flatMap.trans (all_eq_true.mpr fun i _ => plain_fragmentText i)

end

theorem chain_text : plainText (chainText n) = true ∧ deepest 0 (brackets (chainText n)) = 1 := by
  constructor
  · have start : chainText n = lit "\x7b...f\x7d" ++ (range n).flatMap fragmentText := rfl
    rw [start,plain_append,plain_fragments]
    rfl
  · have shown : brackets (chainText n) = true :: false :: brackets ((range n).flatMap fragmentText) := rfl
    have flat := deepest_chain (range n)
    rw [shown]
    simp only [deepest,Nat.zero_add,Nat.sub_self]
    omega

theorem chain_accepted : parseGraphQLQuery sampleParser (chainText n) = .ok (chainDocument n) := by
  obtain ⟨plain,shallow⟩ := chain_text n
  have passed : graphQLNestingExceeds (chainText n) maxGraphQLNesting = false := by
    refine Bool.eq_false_iff.mpr fun exceeds => ?_
    have deep := exceeds_plain plain _ _ _ exceeds
    rw [shallow] at deep
    exact absurd deep (by decide)
  have within : (chainDocument n).within 1 := by
    constructor
    · intro op mem
      obtain rfl := mem_singleton.mp mem
      exact Nat.zero_le 1
    · intro f mem
      obtain ⟨i,_,rfl⟩ := mem_map.mp mem
      exact Nat.zero_le 1
  unfold parseGraphQLQuery
  rw [passed]
  simp only [sampleParser,document_chain,shallow,plain,within,and_self,if_true,Bool.false_eq_true,if_false]

end

theorem fragmentName_inj (i j : Nat) : fragmentName i = fragmentName j ↔ i = j := by
  simp [fragmentName,replicate_inj]

theorem chain_defs (n i : Nat) :
    (chainDocument n).defs (fragmentName i) = if i < n then some (.spread (fragmentName (i + 1)) .nil) else none := by
  induction n with
  | zero => rfl
  | succ n ih =>
    have unfolded : (chainDocument (n + 1)).fragments.reverse =
        (fragmentName n,.spread (fragmentName (n + 1)) .nil) :: (chainDocument n).fragments.reverse := by
      simp [chainDocument,range_succ]
    rw [Document.defs,unfolded,find?_cons]
    by_cases last : n = i
    · subst last; simp
    have other : (fragmentName n == fragmentName i) = false := beq_eq_false_iff_ne.mpr (mt (fragmentName_inj n i).mp last)
    have below : i < n + 1 ↔ i < n := by omega
    simp only [other,below]
    exact ih

theorem chain_enter (n k i : Nat) (ends : i + k = n) (seen : List GoString) (before : ∀ s ∈ seen, ∃ j < i, s = fragmentName j)
    (fuel : Nat) (enough : k ≤ fuel) :
    ∃ seen', enter (Pass.next depthPass (chainDocument n).defs) fuel (fragmentName i) seen = some ⟨seen',k,false⟩ := by
  have fresh : fragmentName i ∉ seen := by
    intro mem
    obtain ⟨j,below,same⟩ := before _ mem
    have := (fragmentName_inj i j).mp same
    omega
  induction k generalizing i seen fuel with
  | zero =>
    have unknown : Pass.next depthPass (chainDocument n).defs (fragmentName i) = none := by
      rw [Pass.next,chain_defs,if_neg (by omega)]
      rfl
    exact ⟨seen,enter_unknown fresh unknown fuel⟩
  | succ k ih =>
    have there : Pass.next depthPass (chainDocument n).defs (fragmentName i) = some [.visit (fragmentName (i + 1))] := by
      rw [Pass.next,chain_defs,if_pos (by omega)]
      rfl
    obtain ⟨fuel,rfl⟩ := Nat.exists_eq_add_of_le' (Nat.le_trans (Nat.le_add_left 1 k) enough)
    have before' : ∀ s ∈ seen ++ [fragmentName i], ∃ j < i + 1, s = fragmentName j := by
      intro s mem
      rcases mem_append.mp mem with mem | mem
      · obtain ⟨j,below,same⟩ := before s mem; exact ⟨j,by omega,same⟩
      · exact ⟨i,by omega,mem_singleton.mp mem⟩
    have fresh' : fragmentName (i + 1) ∉ seen ++ [fragmentName i] := by
      intro mem
      obtain ⟨j,below,same⟩ := before' _ mem
      have := (fragmentName_inj (i + 1) j).mp same
      omega
    obtain ⟨seen',below⟩ := ih (i + 1) (by omega) _ before' fuel (by omega) fresh'
    refine ⟨seen',?_⟩
    rw [enter_fresh fresh there,scan,below]
    simp [scan]

theorem chain_long (n : Nat) : depthPass.chain (chainDocument n) = n := by
  obtain ⟨seen,ran⟩ := chain_enter n n 0 (zero_add n) [] (by simp) n (le_refl n)
  have top : Pass.top depthPass (chainDocument n) = [.visit (fragmentName 0)] := rfl
  have length : (chainDocument n).fragments.length = n := by simp [chainDocument]
  rw [Pass.chain,Pass.search,top,length,scan,ran]
  simp [scan]

-- One level deep, and as many calls down as there are fragments.
theorem chain_unbounded :
    ¬ ∃ k, ∀ query doc, parseGraphQLQuery sampleParser query = .ok doc → depthPass.callDepth doc ≤ k * maxGraphQLNesting := by
  rintro ⟨k,bound⟩
  have accepted := chain_accepted (k * maxGraphQLNesting + 1)
  have least := (accepted_depth depthPass accepted (by decide)).1
  rw [chain_long] at least
  have most := bound _ _ accepted
  omega

end Gateon.Graphql
