import Gateon.Rule.Grammar

namespace Gateon.Rule
open Go List

section
variable {R T : Type} (lib : Lib R) (parse : Parser → Except Error (Node R × Parser))
  (tokens : T → List Token) (good : T → Prop) (reading : Request → GoString → T → Bool)

def Sound : Prop :=
  ∀ p n q, parse p = .ok (n,q) → ∃ t, good t ∧ Reads (tokens t) p.rest q.rest ∧ q.depth = p.depth ∧
    Means lib n (fun r host => reading r host t)

def Complete (stop : GoString → Prop) (depth : Nat) : Prop :=
  ∀ p t m, p.depth = depth → good t → Reads (tokens t) p.rest m → stop (dropSpace m) →
    ∃ n q, parse p = .ok (n,q) ∧ dropSpace q.rest = dropSpace m ∧ q.depth = p.depth ∧
      Means lib n (fun r host => reading r host t)
end

section
variable {R T : Type} {lib : Lib R} {operand : Parser → Except Error (Node R × Parser)}
  {tokens : T → List Token} {good : T → Prop} {reading : Request → GoString → T → Bool} {op : Token}

def laterTokens (op : Token) (tokens : T → List Token) (ts : List T) : List Token :=
  ts.flatMap fun t => op :: tokens t

theorem consume_true (took : consume p tok = (q,true)) : dropSpace p.rest = tok ++ q.rest ∧ q.depth = p.depth := by
  unfold consume at took
  dsimp only at took
  split at took
  · rename_i here
    cases took
    obtain ⟨tail,split⟩ := isPrefixOf_iff_prefix.mp here
    simp only [skipSpace_rest] at split
    simp [← split]
  · cases took

theorem consume_false (refused : consume p tok = (q,false)) : dropSpace p.rest = dropSpace q.rest ∧ q.depth = p.depth := by
  unfold consume at refused
  dsimp only at refused
  split at refused
  · cases refused
  · cases refused; simp

theorem consume_here (here : dropSpace p.rest = tok ++ m) : ∃ q, consume p tok = (q,true) ∧ q.rest = m ∧ q.depth = p.depth := by
  refine ⟨(skipSpace p).advance tok.length,?_,by simp [here],rfl⟩
  simp [consume,hasPrefix,here]

theorem consume_absent (absent : ¬ tok <+: dropSpace p.rest) :
    ∃ q, consume p tok = (q,false) ∧ dropSpace q.rest = dropSpace p.rest ∧ q.depth = p.depth := by
  refine ⟨skipSpace p,?_,by simp,rfl⟩
  have other : tok.isPrefixOf (dropSpace p.rest) = false := by
    simpa [← isPrefixOf_iff_prefix] using absent
  simp [consume,hasPrefix,other]

-- Induction on the fuel; the operands read so far stay at the front.
theorem listLoop_sound (sound : Sound lib operand tokens good reading) (ran : parseListLoop op.text operand fuel parts p = .ok (ns,q)) :
    ∃ (ts : List T) (ms : List (Node R)), (∀ t ∈ ts, good t) ∧ ns = parts ++ ms ∧
      Reads (laterTokens op tokens ts) p.rest q.rest ∧ q.depth = p.depth ∧
      List.Forall₂ (fun n t => Means lib n (fun r host => reading r host t)) ms ts := by
  induction fuel generalizing parts p with
  | zero => cases ran; exact ⟨[],[],by simp,by simp,.refl _,rfl,.nil⟩
  | succ fuel ih =>
    unfold parseListLoop at ran
    split at ran
    · rename_i p1 refused
      cases ran
      obtain ⟨same,depth⟩ := consume_false refused
      exact ⟨[],[],by simp,by simp,.nil same,depth,.nil⟩
    rename_i p1 took
    obtain ⟨here,depth1⟩ := consume_true took
    split at ran
    · cases ran
    rename_i n p2 read
    obtain ⟨t,ok,reads,depth2,means⟩ := sound _ _ _ read
    obtain ⟨ts,ms,oks,whole,rest,depth3,meanings⟩ := ih ran
    refine ⟨t :: ts,n :: ms,by simpa using ⟨ok,oks⟩,by simp [whole],?_,by rw [depth3,depth2,depth1],.cons means meanings⟩
    exact .cons here (reads_append.mpr ⟨_,reads,rest⟩)

theorem reads_length (reads : Reads ts s r) : (dropSpace r).length ≤ (dropSpace s).length := by
  induction reads with
  | nil same => exact Nat.le_of_eq (congrArg List.length same.symm)
  | cons here _ ih =>
    refine ih.trans (Nat.le_trans (dropSpace_length _) ?_)
    rw [here,length_append]
    omega

theorem later_stops {stop : GoString → Prop} (pause : ∀ s, op.text <+: s → stop s) (last : stop (dropSpace m))
    (later : Reads (laterTokens op tokens ts) s m) : stop (dropSpace s) := by
  cases ts with
  | nil => cases later with
    | nil same => exact same ▸ last
  | cons x xs => obtain ⟨_,next,_⟩ := reads_cons.mp later; exact pause _ (next ▸ prefix_append _ _)

theorem listLoop_complete (fuel : Nat) (parts : List (Node R)) (complete : Complete lib operand tokens good reading stop depth)
    (pause : ∀ s, op.text <+: s → stop s) (ts : List T) (level : p.depth = depth)
    (oks : ∀ t ∈ ts, good t) (reads : Reads (laterTokens op tokens ts) p.rest m)
    (last : stop (dropSpace m)) (closed : ¬ op.text <+: dropSpace m) (some : op.text ≠ []) (enough : (dropSpace p.rest).length ≤ fuel) :
    ∃ ms q, parseListLoop op.text operand fuel parts p = .ok (parts ++ ms,q) ∧
      dropSpace q.rest = dropSpace m ∧ q.depth = p.depth ∧
      List.Forall₂ (fun n t => Means lib n (fun r host => reading r host t)) ms ts := by
  induction ts generalizing parts p fuel with
  | nil =>
    cases reads with
    | nil same =>
      cases fuel with
      | zero => exact ⟨[],p,by simp [parseListLoop],same,rfl,.nil⟩
      | succ fuel =>
        obtain ⟨q,refused,rest,depthQ⟩ := consume_absent (by rw [same]; exact closed)
        exact ⟨[],q,by simp [parseListLoop,refused],rest.trans same,depthQ,.nil⟩
  | cons t ts ih =>
    obtain ⟨afterOp,here,more⟩ := reads_cons.mp reads
    obtain ⟨mid,first,rest⟩ := reads_append.mp more
    have size := congrArg List.length here
    have opSize := length_pos_iff.mpr some
    have midSize := reads_length first
    have afterSize := dropSpace_length afterOp
    simp only [length_append] at size
    obtain ⟨fuel,rfl⟩ : ∃ k, fuel = k+1 := ⟨fuel-1,by omega⟩
    obtain ⟨q1,took,rest1,depth1⟩ := consume_here here
    obtain ⟨n,q2,read,rest2,depth2,means⟩ :=
      complete q1 t mid (depth1.trans level) (oks t (by simp)) (by rw [rest1]; exact first) (later_stops pause last rest)
    obtain ⟨ms,q3,ran,rest3,depth3,meanings⟩ := ih (p:=q2) fuel (parts ++ [n])
      (depth2.trans (depth1.trans level)) (forall_mem_cons.mp oks).2
      (reads_from_space.mp (rest2 ▸ reads_from_space.mpr rest)) (by rw [rest2]; omega)
    refine ⟨n :: ms,q3,?_,rest3,by rw [depth3,depth2,depth1],.cons means meanings⟩
    simpa [parseListLoop,took,read] using ran

theorem meanings_map (all : List.Forall₂ (fun n t => Means lib n (fun r host => reading r host t)) ms ts)
    (r : Request) (host : GoString) : ms.map (eval lib r host) = ts.map (reading r host) := by
  induction all with
  | nil => rfl
  | cons here _ ih => rw [map_cons,map_cons,here r host,ih]

variable (op : Token) (gather : List Bool → Bool)

theorem parseList_sound
    (one : ∀ b, gather [b] = b) (many : ∀ r host ns, eval lib r host (k ns) = gather (ns.map (eval lib r host)))
    (sound : Sound lib operand tokens good reading) (ran : parseList k op.text operand p = .ok (n,q)) :
    ∃ first rest, good first ∧ (∀ t ∈ rest, good t) ∧
      Reads (tokens first ++ laterTokens op tokens rest) p.rest q.rest ∧ q.depth = p.depth ∧
      Means lib n (fun r host => gather ((first :: rest).map (reading r host))) := by
  unfold parseList at ran
  split at ran
  · cases ran
  rename_i n1 p1 read
  obtain ⟨first,ok,reads,depth1,means⟩ := sound _ _ _ read
  split at ran
  · cases ran
  · rename_i only p2 loop
    cases ran
    obtain ⟨ts,ms,oks,whole,rest,depth2,meanings⟩ := listLoop_sound sound loop
    have none : ms = [] := by simpa using congrArg List.length whole
    subst none
    cases meanings
    exact ⟨first,[],ok,by simp,reads_append.mpr ⟨_,reads,rest⟩,depth2.trans depth1,
      fun r host => by simp [one,means r host]⟩
  · rename_i parts p2 several loop
    cases ran
    obtain ⟨ts,ms,oks,whole,rest,depth2,meanings⟩ := listLoop_sound sound loop
    refine ⟨first,ts,ok,oks,reads_append.mpr ⟨_,reads,rest⟩,depth2.trans depth1,fun r host => ?_⟩
    simp [many,whole,means r host,meanings_map meanings r host]

theorem parseList_complete
    (one : ∀ b, gather [b] = b) (many : ∀ r host ns, eval lib r host (k ns) = gather (ns.map (eval lib r host)))
    (complete : Complete lib operand tokens good reading stop depth)
    (pause : ∀ s, op.text <+: s → stop s) (some : op.text ≠ []) (level : p.depth = depth) (ok : good first) (oks : ∀ t ∈ rest, good t)
    (reads : Reads (tokens first ++ laterTokens op tokens rest) p.rest m) (last : stop (dropSpace m)) (closed : ¬ op.text <+: dropSpace m) :
    ∃ n q, parseList k op.text operand p = .ok (n,q) ∧ dropSpace q.rest = dropSpace m ∧ q.depth = p.depth ∧
      Means lib n (fun r host => gather ((first :: rest).map (reading r host))) := by
  obtain ⟨mid,head,later⟩ := reads_append.mp reads
  obtain ⟨n1,q1,read,rest1,depth1,means⟩ := complete p first mid level ok head (later_stops pause last later)
  obtain ⟨ms,q2,loop,rest2,depth2,meanings⟩ := listLoop_complete (p:=q1) q1.rest.length [n1] complete
    pause rest (depth1.trans level) oks (reads_from_space.mp (rest1 ▸ reads_from_space.mpr later)) last closed some
    (dropSpace_length _)
  have depths := depth2.trans depth1
  unfold parseList
  simp only [read]
  cases meanings with
  | nil => exact ⟨n1,q2,by simp [loop],rest2,depths,fun r host => by simp [one,means r host]⟩
  | @cons n2 t2 ms ts here tail =>
    refine ⟨k (n1 :: n2 :: ms),q2,by simp [loop],rest2,depths,fun r host => ?_⟩
    simp [many,means r host,here r host,meanings_map tail r host]

end

theorem andTokens_later (us : List Unary) : andTokens us = laterTokens .andAnd Unary.tokens us := by
  induction us with
  | nil => rfl
  | cons x rest ih => simp [andTokens,laterTokens,ih]

theorem orTokens_later (cs : List Conjunction) : orTokens cs = laterTokens .orOr Conjunction.tokens cs := by
  induction cs with
  | nil => rfl
  | cons x rest ih => simp [orTokens,laterTokens,ih]

theorem andNesting_le : andNesting us ≤ room ↔ ∀ x ∈ us, x.nesting ≤ room := by
  induction us with
  | nil => simp [andNesting]
  | cons x rest ih => simp [andNesting,ih]

theorem orNesting_le : orNesting cs ≤ room ↔ ∀ x ∈ cs, x.nesting ≤ room := by
  induction cs with
  | nil => simp [orNesting]
  | cons x rest ih => simp [orNesting,ih]

section
variable {lib : Lib R}

theorem andAccepted_all : andAccepted lib us ↔ ∀ x ∈ us, x.Accepted lib := by
  induction us with
  | nil => simp [andAccepted]
  | cons x rest ih => simp [andAccepted,ih]

theorem orAccepted_all : orAccepted lib cs ↔ ∀ x ∈ cs, x.Accepted lib := by
  induction cs with
  | nil => simp [orAccepted]
  | cons x rest ih => simp [orAccepted,ih]

section
variable (lib : Lib R)

theorem conjunction_reading (r : Request) (host : GoString) (first : Unary) (rest : List Unary) :
    (Conjunction.mk first rest).reading lib r host = ((first :: rest).map (Unary.reading lib r host)).all id := by
  have later : andReading lib r host rest = (rest.map (Unary.reading lib r host)).all id := by
    induction rest with
    | nil => rfl
    | cons x rest ih => simp [andReading,ih]
  simp [Conjunction.reading,later]

theorem disjunction_reading (r : Request) (host : GoString) (first : Conjunction) (rest : List Conjunction) :
    (Disjunction.mk first rest).reading lib r host = ((first :: rest).map (Conjunction.reading lib r host)).any id := by
  have later : orReading lib r host rest = (rest.map (Conjunction.reading lib r host)).any id := by
    induction rest with
    | nil => rfl
    | cons x rest ih => simp [orReading,ih]
  simp [Disjunction.reading,later]

variable (room : Nat)

def Primary.Fits (t : Primary) : Prop := t.nesting ≤ room ∧ t.Accepted lib
def Unary.Fits (t : Unary) : Prop := t.nesting ≤ room ∧ t.Accepted lib
def Conjunction.Fits (t : Conjunction) : Prop := t.nesting ≤ room ∧ t.Accepted lib
def Disjunction.Fits (t : Disjunction) : Prop := t.nesting ≤ room ∧ t.Accepted lib
def Disjunction.FitsInside (t : Disjunction) : Prop := t.nesting < room ∧ t.Accepted lib

end

def stopAnd (s : GoString) : Prop := ¬ Token.andAnd.text <+: s
def stopOr (s : GoString) : Prop := ¬ Token.andAnd.text <+: s ∧ ¬ Token.orOr.text <+: s

theorem right_stops (s : GoString) : stopOr (byte ')' :: s) := by
  constructor <;>
  · rintro ⟨tail,equal⟩; exact absurd (List.cons.inj equal).1 (by decide)

theorem blank_stops : stopOr [] := by
  constructor <;>
  · rintro ⟨tail,equal⟩; cases equal

theorem negated_again (negated : Bool) (k : Nat) : ((!negated) != decide (k % 2 = 1)) = (negated != decide ((k+1) % 2 = 1)) := by
  rcases Nat.mod_two_eq_zero_or_one k with even | odd
  · have next : (k+1) % 2 = 1 := by omega
    cases negated <;> simp [even,next]
  · have next : (k+1) % 2 = 0 := by omega
    cases negated <;> simp [odd,next]

theorem negations_sound (ran : negations fuel negated p = (flag,q)) :
    ∃ k, Reads (List.replicate k .bang) p.rest q.rest ∧ flag = (negated != decide (k % 2 = 1)) ∧ q.depth = p.depth := by
  induction fuel generalizing negated p with
  | zero => cases ran; exact ⟨0,.refl _,by simp,rfl⟩
  | succ fuel ih =>
    unfold negations at ran
    dsimp only at ran
    split at ran
    · rename_i p1 took
      obtain ⟨here,depth1⟩ := consumeByte_some took
      obtain ⟨k,reads,parity,depth2⟩ := ih ran
      refine ⟨k+1,.cons (by simpa using here) reads,?_,by rw [depth2]; simpa using depth1⟩
      rw [parity,negated_again]
    · cases ran; exact ⟨0,.nil (by simp),by simp,by simp⟩

theorem negations_complete (fuel : Nat) (negated : Bool) (reads : Reads (List.replicate k .bang) p.rest m)
    (closed : (dropSpace m).head? ≠ some (byte '!')) (enough : (dropSpace p.rest).length ≤ fuel) :
    ∃ q, negations fuel negated p = (negated != decide (k % 2 = 1),q) ∧ dropSpace q.rest = dropSpace m ∧
      q.depth = p.depth := by
  induction k generalizing negated p fuel with
  | zero =>
    cases reads with
    | nil same =>
      cases fuel with
      | zero => exact ⟨p,by simp [negations],same,rfl⟩
      | succ fuel =>
        have refused : consumeByte (skipSpace p) (byte '!') = none :=
          consumeByte_refuse (by simpa [same] using closed)
        exact ⟨skipSpace p,by simp [negations,refused],by simp [same],rfl⟩
  | succ k ih =>
    obtain ⟨rest,here,more⟩ := reads_cons.mp reads
    have size := congrArg List.length here
    have shrink := dropSpace_length rest
    simp only [text_bang,length_append,length_cons,length_nil] at size
    obtain ⟨fuel,rfl⟩ : ∃ j, fuel = j+1 := ⟨fuel-1,by omega⟩
    obtain ⟨q1,took,rest1,depth1⟩ := consumeByte_take (p:=skipSpace p) (c:=byte '!') (m:=rest) (by simpa using here)
    obtain ⟨q2,ran,rest2,depth2⟩ := ih (p:=q1) fuel (!negated) (by rw [rest1]; exact more)
      (by rw [rest1]; omega)
    refine ⟨q2,?_,rest2,by rw [depth2]; simpa using depth1⟩
    unfold negations
    simp only [took,ran,negated_again]

theorem primary_first (fits : Primary.Fits lib room t) (reads : Reads t.tokens s m) : (dropSpace s).head? ≠ some (byte '!') := by
  cases t with
  | paren e =>
    obtain ⟨rest,here,_⟩ := reads_cons.mp (by simpa [Primary.tokens] using reads)
    rw [here]
    simp only [text_left,cons_append,head?_cons,ne_eq,Option.some.injEq]
    decide
  | condition name values =>
    obtain ⟨rest,here,_⟩ := reads_cons.mp (by simpa [Primary.tokens] using reads)
    obtain ⟨filled,letters⟩ := condition_letters (checked_known fits.2)
    cases name with
    | nil => exact absurd rfl filled
    | cons c name =>
      simp only [all_cons,Bool.and_eq_true] at letters
      rw [here]
      simp only [text_name,cons_append,head?_cons,ne_eq,Option.some.injEq]
      rintro rfl
      exact absurd letters.1 (by decide)

section
variable (lib : Lib R) (r : Request) (host : GoString)

theorem gather_all (ns : List (Node R)) : eval lib r host (.opAnd ns) = (ns.map (eval lib r host)).all id := by
  simp [eval,evalAll_exact,List.all_map]

theorem gather_any (ns : List (Node R)) : eval lib r host (.opOr ns) = (ns.map (eval lib r host)).any id := by
  simp [eval,evalAny_exact,List.any_map]

end

theorem conjunction_fits : (Conjunction.mk first rest).Fits lib room ↔
    first.Fits lib room ∧ ∀ t ∈ rest, t.Fits lib room := by
  simp only [Conjunction.Fits,Conjunction.nesting,Conjunction.Accepted,Nat.max_le,andNesting_le,andAccepted_all,Unary.Fits]
  grind

theorem disjunction_fits : (Disjunction.mk first rest).Fits lib room ↔
    first.Fits lib room ∧ ∀ t ∈ rest, t.Fits lib room := by
  simp only [Disjunction.Fits,Disjunction.nesting,Disjunction.Accepted,Nat.max_le,orNesting_le,orAccepted_all,Conjunction.Fits]
  grind

theorem or_pauses_and (s : GoString) (here : Token.orOr.text <+: s) : stopAnd s := by
  rintro ⟨tail,rfl⟩
  obtain ⟨other,equal⟩ := here
  exact absurd (List.cons.inj equal).1 (by decide)

variable {inner : Parser → Except Error (Node R × Parser)}

section
variable (sound : Sound lib inner Disjunction.tokens (Disjunction.FitsInside lib room) (Disjunction.reading lib))
include sound

theorem primary_sound : Sound lib (parsePrimary lib inner) Primary.tokens (Primary.Fits lib room) (Primary.reading lib) := by
  intro p n q ran
  unfold parsePrimary at ran
  dsimp only at ran
  split at ran
  · cases ran
  rename_i c tail rest
  split at ran
  · obtain ⟨name,values,reads,checked,means,depth⟩ := parseCondition_sound ran
    refine ⟨.condition name values,⟨by simp [Primary.nesting],checked⟩,?_,by simpa using depth,means⟩
    exact reads_from_space.mp (by simpa using reads)
  rename_i notOther
  have opened : c = byte '(' := by simpa using notOther
  split at ran
  · cases ran
  split at ran
  · cases ran
  rename_i n1 q1 read
  obtain ⟨e,fits,reads,depth1,means⟩ := sound _ _ _ read
  split at ran
  · rename_i q2 closed
    cases ran
    obtain ⟨here,depth2⟩ := consumeByte_some closed
    simp only [skipSpace_rest,skipSpace_depth] at here depth2 rest
    refine ⟨.paren e,⟨fits.1,fits.2⟩,?_,by rw [depth2,depth1]; simp,means⟩
    have inside : dropSpace p.rest = Token.left.text ++ tail := by rw [rest,opened]; rfl
    refine .cons inside (reads_append.mpr ⟨_,?_,reads_one.mpr ⟨_,here,rfl⟩⟩)
    simpa [rest] using reads
  · cases ran

theorem unary_sound : Sound lib (parseUnary lib inner) Unary.tokens (Unary.Fits lib room) (Unary.reading lib) := by
  intro p n q ran
  unfold parseUnary at ran
  cases run : negations p.rest.length false p with
  | mk flag p1 =>
    obtain ⟨k,bangs,parity,depth1⟩ := negations_sound run
    simp only [run] at ran
    split at ran
    · cases ran
    rename_i n1 p2 read
    obtain ⟨t,fits,reads,depth2,means⟩ := primary_sound sound _ _ _ read
    have whole : Reads (Unary.mk k t).tokens p.rest p2.rest := reads_append.mpr ⟨_,bangs,reads⟩
    split at ran
    · rename_i negated
      cases ran
      refine ⟨.mk k t,fits,whole,depth2.trans depth1,fun r host => ?_⟩
      have odd : k % 2 = 1 := by simpa [negated] using parity
      simp [eval,means r host,Unary.reading,odd]
    · rename_i plain
      cases ran
      refine ⟨.mk k t,fits,whole,depth2.trans depth1,fun r host => ?_⟩
      have even : ¬ k % 2 = 1 := by
        intro odd
        simp [odd] at parity
        exact plain parity
      simp only [Unary.reading,if_neg even]
      exact means r host

theorem and_sound : Sound lib (parseAnd lib inner) Conjunction.tokens (Conjunction.Fits lib room) (Conjunction.reading lib) := by
  intro p n q ran
  obtain ⟨first,rest,ok,oks,reads,depth,means⟩ :=
    parseList_sound .andAnd (·.all id) (by simp) (gather_all lib) (unary_sound sound) ran
  refine ⟨.mk first rest,conjunction_fits.mpr ⟨ok,oks⟩,?_,depth,fun r host => ?_⟩
  · rwa [Conjunction.tokens,andTokens_later]
  · exact (means r host).trans (conjunction_reading lib r host first rest).symm

theorem or_sound :
    Sound lib (parseList .opOr (lit "||") (parseAnd lib inner)) Disjunction.tokens (Disjunction.Fits lib room)
      (Disjunction.reading lib) := by
  intro p n q ran
  obtain ⟨first,rest,ok,oks,reads,depth,means⟩ :=
    parseList_sound .orOr (·.any id) (by simp) (gather_any lib) (and_sound sound) ran
  refine ⟨.mk first rest,disjunction_fits.mpr ⟨ok,oks⟩,?_,depth,fun r host => ?_⟩
  · rwa [Disjunction.tokens,orTokens_later]
  · exact (means r host).trans (disjunction_reading lib r host first rest).symm

end

section
variable (levels : depth + room = maxDepth)
  (complete : Complete lib inner Disjunction.tokens (Disjunction.FitsInside lib room) (Disjunction.reading lib) stopOr (depth+1))
include levels complete

theorem primary_complete :
    Complete lib (parsePrimary lib inner) Primary.tokens (Primary.Fits lib room) (Primary.reading lib) (fun _ => True) depth := by
  intro p t m level fits reads _
  cases t with
  | condition name values =>
    obtain ⟨word,here,_⟩ := reads_cons.mp (by simpa [Primary.tokens] using reads)
    obtain ⟨n,q,read,rest,depthQ,means⟩ := parseCondition_complete (p:=skipSpace p) name values fits.2
      (by simpa using reads_from_space.mpr reads) (by simp)
    refine ⟨n,q,?_,rest,by simpa using depthQ,means⟩
    obtain ⟨filled,letters⟩ := condition_letters (checked_known fits.2)
    cases name with
    | nil => exact absurd rfl filled
    | cons c name =>
      have letter : isIdentByte c := by
        simp only [all_cons,Bool.and_eq_true] at letters
        exact letters.1
      have other : c ≠ byte '(' := by
        rintro rfl
        rw [ident_left] at letter
        cases letter
      have head : (skipSpace p).rest = c :: (name ++ word) := by simpa using here
      unfold parsePrimary
      simp only [head,ne_eq,other,not_false_eq_true,↓reduceIte]
      exact read
  | paren e =>
    have deeper : e.nesting < room := fits.1
    obtain ⟨afterLeft,left,more⟩ := reads_cons.mp (by simpa [Primary.tokens] using reads)
    obtain ⟨mid,inside,close⟩ := reads_append.mp more
    obtain ⟨afterRight,right,done⟩ := reads_one.mp close
    have stops : stopOr (dropSpace mid) := by rw [right]; exact right_stops afterRight
    have head : (skipSpace p).rest = byte '(' :: afterLeft := by simpa using left
    obtain ⟨n,q1,read,rest1,depth1,means⟩ := complete {(skipSpace p).advance 1 with depth := (skipSpace p).depth+1} e mid
      (by simp [level]) ⟨deeper,fits.2⟩ (by rw [advance_rest,head]; exact inside) stops
    have closeRest : (skipSpace {q1 with depth := q1.depth-1}).rest = byte ')' :: afterRight := by
      simpa [rest1] using right
    obtain ⟨q2,closed,rest2,depth2⟩ := consumeByte_take closeRest
    have allowed : (skipSpace p).depth ≠ maxDepth := by simp only [skipSpace_depth,level]; omega
    refine ⟨n,q2,?_,by rw [rest2,done],by rw [depth2]; simp [depth1],means⟩
    unfold parsePrimary
    simp only [head,ne_eq,not_true_eq_false,↓reduceIte,allowed,read,closed]

theorem unary_complete :
    Complete lib (parseUnary lib inner) Unary.tokens (Unary.Fits lib room) (Unary.reading lib) (fun _ => True) depth := by
  intro p t m level fits reads _
  cases t with
  | mk k t =>
    obtain ⟨mid,bangs,rest⟩ := reads_append.mp reads
    obtain ⟨q1,run,rest1,depth1⟩ := negations_complete p.rest.length false bangs
      (primary_first fits rest) (dropSpace_length _)
    obtain ⟨n,q2,read,rest2,depth2,means⟩ := primary_complete levels complete q1 t m (depth1.trans level) fits
      (reads_from_space.mp (rest1 ▸ reads_from_space.mpr rest)) trivial
    unfold parseUnary
    simp only [run,read]
    by_cases odd : k % 2 = 1
    · refine ⟨.opNot n,q2,by simp [odd],rest2,depth2.trans depth1,fun r host => ?_⟩
      simp [eval,means r host,Unary.reading,odd]
    · refine ⟨n,q2,by simp [odd],rest2,depth2.trans depth1,fun r host => ?_⟩
      simp only [Unary.reading,if_neg odd]
      exact means r host

theorem and_complete :
    Complete lib (parseAnd lib inner) Conjunction.tokens (Conjunction.Fits lib room) (Conjunction.reading lib)
      stopAnd depth := by
  intro p t m level fits reads stops
  cases t with
  | mk first rest =>
    obtain ⟨ok,oks⟩ := conjunction_fits.mp fits
    rw [Conjunction.tokens,andTokens_later] at reads
    obtain ⟨n,q,read,restQ,depthQ,means⟩ := parseList_complete .andAnd (·.all id) (by simp) (gather_all lib)
      (unary_complete levels complete) (by simp) (by decide) level ok oks reads trivial stops
    exact ⟨n,q,read,restQ,depthQ,fun r host => (means r host).trans (conjunction_reading lib r host first rest).symm⟩

theorem or_complete :
    Complete lib (parseList .opOr (lit "||") (parseAnd lib inner)) Disjunction.tokens (Disjunction.Fits lib room)
      (Disjunction.reading lib) stopOr depth := by
  intro p t m level fits reads stops
  cases t with
  | mk first rest =>
    obtain ⟨ok,oks⟩ := disjunction_fits.mp fits
    rw [Disjunction.tokens,orTokens_later] at reads
    obtain ⟨n,q,read,restQ,depthQ,means⟩ := parseList_complete .orOr (·.any id) (by simp) (gather_any lib)
      (and_complete levels complete) or_pauses_and (by decide) level ok oks reads stops.1 stops.2
    exact ⟨n,q,read,restQ,depthQ,fun r host => (means r host).trans (disjunction_reading lib r host first rest).symm⟩

end

-- Induction on the levels left; with none left nothing fits between parentheses.
theorem parseOr_sound (lib : Lib R) (room : Nat) :
    Sound lib (parseOr lib room) Disjunction.tokens (Disjunction.Fits lib room) (Disjunction.reading lib) := by
  induction room with
  | zero => exact or_sound nofun
  | succ room ih =>
    refine or_sound (fun p n q ran => ?_)
    obtain ⟨t,fits,rest⟩ := ih p n q ran
    exact ⟨t,⟨Nat.lt_succ_of_le fits.1,fits.2⟩,rest⟩

theorem parseOr_complete (lib : Lib R) (room depth : Nat) (levels : depth + room = maxDepth) :
    Complete lib (parseOr lib room) Disjunction.tokens (Disjunction.Fits lib room) (Disjunction.reading lib)
      stopOr depth := by
  induction room generalizing depth with
  | zero => exact or_complete levels (fun _ _ _ _ fits => absurd fits.1 (Nat.not_lt_zero _))
  | succ room ih =>
    refine or_complete levels (fun p t m level fits reads stops => ?_)
    exact ih (depth+1) (by omega) p t m level ⟨Nat.le_of_lt_succ fits.1,fits.2⟩ reads stops

end

theorem symbol_solid : Token.bang.Solid ∧ Token.andAnd.Solid ∧ Token.orOr.Solid ∧ Token.left.Solid ∧
    Token.right.Solid ∧ Token.comma.Solid :=
  ⟨⟨_,_,rfl,by decide⟩,⟨_,_,rfl,by decide⟩,⟨_,_,rfl,by decide⟩,⟨_,_,rfl,by decide⟩,⟨_,_,rfl,by decide⟩,
    ⟨_,_,rfl,by decide⟩⟩

theorem name_solid (known : isCondition name) : (Token.name name).Solid := by
  obtain ⟨filled,letters⟩ := condition_letters known
  cases name with
  | nil => exact absurd rfl filled
  | cons c rest =>
    simp only [all_cons,Bool.and_eq_true] at letters
    exact ⟨c,rest,rfl,ident_space letters.1⟩

theorem values_solid (values : List Quoted) : ∀ t ∈ valueTokens values, t.Solid := by
  have value : ∀ w : Quoted, (Token.value w).Solid := fun w => ⟨w.quote,_,rfl,quote_solid w⟩
  induction values with
  | nil => simp [valueTokens]
  | cons w rest ih =>
    cases rest with
    | nil => simpa [valueTokens] using value w
    | cons x xs =>
      rw [valueTokens_cons w (x :: xs) (by simp)]
      simpa using ⟨value w,symbol_solid.2.2.2.2.2,ih⟩

mutual
theorem primary_solid (lib : Lib R) : (t : Primary) → t.Accepted lib → ∀ x ∈ t.tokens, x.Solid
  | .paren e,ok => by
    have inside := disjunction_solid lib e ok
    simpa [Primary.tokens,or_imp,forall_and] using ⟨symbol_solid.2.2.2.1,inside,symbol_solid.2.2.2.2.1⟩
  | .condition name values,ok => by
    have named := name_solid (checked_known ok)
    have inside := values_solid values
    simpa [Primary.tokens,or_imp,forall_and] using ⟨named,symbol_solid.2.2.2.1,inside,symbol_solid.2.2.2.2.1⟩
theorem unary_solid (lib : Lib R) : (t : Unary) → t.Accepted lib → ∀ x ∈ t.tokens, x.Solid
  | .mk bangs operand,ok => by
    refine forall_mem_append.mpr ⟨?_,primary_solid lib operand ok⟩
    intro x bang
    rw [(mem_replicate.mp bang).2]
    exact symbol_solid.1
theorem conjunction_solid (lib : Lib R) : (t : Conjunction) → t.Accepted lib → ∀ x ∈ t.tokens, x.Solid
  | .mk first rest,ok => forall_mem_append.mpr ⟨unary_solid lib first ok.1,and_solid lib rest ok.2⟩
theorem disjunction_solid (lib : Lib R) : (t : Disjunction) → t.Accepted lib → ∀ x ∈ t.tokens, x.Solid
  | .mk first rest,ok => forall_mem_append.mpr ⟨conjunction_solid lib first ok.1,or_solid lib rest ok.2⟩
theorem and_solid (lib : Lib R) : (us : List Unary) → andAccepted lib us → ∀ x ∈ andTokens us, x.Solid
  | [],_ => by simp [andTokens]
  | u :: rest,ok => forall_mem_cons.mpr ⟨symbol_solid.2.1,forall_mem_append.mpr ⟨unary_solid lib u ok.1,and_solid lib rest ok.2⟩⟩
theorem or_solid (lib : Lib R) : (cs : List Conjunction) → orAccepted lib cs → ∀ x ∈ orTokens cs, x.Solid
  | [],_ => by simp [orTokens]
  | c :: rest,ok => forall_mem_cons.mpr ⟨symbol_solid.2.2.1,forall_mem_append.mpr ⟨conjunction_solid lib c ok.1,or_solid lib rest ok.2⟩⟩
end

variable {lib : Lib R}

theorem derives_reads : Derives lib src e ↔ Reads e.tokens src [] ∧ e.Fits lib maxDepth := by
  constructor
  · rintro ⟨spelt,nesting,ok⟩; exact ⟨(spells_reads (disjunction_solid lib e ok)).mp spelt,nesting,ok⟩
  · rintro ⟨reads,nesting,ok⟩; exact ⟨(spells_reads (disjunction_solid lib e ok)).mpr reads,nesting,ok⟩

theorem parse_sound (ran : Parse lib src = .ok e) : ∃ t, Derives lib src t ∧ Means lib e.root (t.reading lib) := by
  unfold Parse at ran
  dsimp only at ran
  split at ran
  · cases ran
  split at ran
  · cases ran
  rename_i root q read
  split at ran
  · cases ran
  rename_i finished
  cases ran
  have spent : dropSpace q.rest = dropSpace [] := by simpa [dropSpace] using finished
  obtain ⟨t,fits,reads,_,means⟩ := parseOr_sound lib maxDepth _ _ _ read
  refine ⟨t,derives_reads.mpr ⟨reads_same_end (reads_from_space.mp ?_) spent,fits⟩,means⟩
  simpa using reads

theorem tokens_filled (t : Disjunction) : t.tokens ≠ [] := by
  obtain ⟨⟨⟨bangs,operand⟩,_⟩,_⟩ := t
  cases operand <;> simp [Disjunction.tokens,Conjunction.tokens,Unary.tokens,Primary.tokens]

theorem derived_not_blank (derived : Derives lib src t) : dropSpace src ≠ [] := by
  obtain ⟨reads,_,ok⟩ := derives_reads.mp derived
  have filled := tokens_filled t
  have solid := disjunction_solid lib t ok
  generalize t.tokens = ts at reads filled solid
  cases reads with
  | nil _ => contradiction
  | cons here _ => obtain ⟨c,text,spelt,_⟩ := solid _ mem_cons_self; simp [here,spelt]

theorem parse_complete (derived : Derives lib src t) :
    ∃ e, Parse lib src = .ok e ∧ Means lib e.root (t.reading lib) := by
  obtain ⟨reads,fits⟩ := derives_reads.mp derived
  let p : Parser := skipSpace ⟨[],src,0⟩
  have rest : p.rest = dropSpace src := skipSpace_rest _
  obtain ⟨n,q,read,restQ,_,means⟩ := parseOr_complete lib maxDepth 0 (by simp) p t [] rfl fits
    (by rw [rest]; exact reads_from_space.mpr reads) (by simpa [dropSpace] using blank_stops)
  have some : p.rest ≠ [] := by rw [rest]; exact derived_not_blank derived
  have spent : dropSpace q.rest = [] := restQ
  refine ⟨⟨n⟩,?_,means⟩
  change (if p.rest = [] then _ else _) = _
  simp only [some,↓reduceIte]
  change parseOr lib maxDepth (skipSpace ⟨[],src,0⟩) = _ at read
  simp [read,spent]

theorem parse_exact (lib : Lib R) (src : GoString) : ((∃ e, Parse lib src = .ok e) ↔ ∃ t, Derives lib src t) ∧
    ∀ e t, Parse lib src = .ok e → Derives lib src t → ∀ r host, e.Match lib r host = t.reading lib r host := by
  refine ⟨⟨?_,?_⟩,?_⟩
  · rintro ⟨e,ran⟩
    obtain ⟨t,derived,_⟩ := parse_sound ran
    exact ⟨t,derived⟩
  · rintro ⟨t,derived⟩
    obtain ⟨e,ran,_⟩ := parse_complete derived
    exact ⟨e,ran⟩
  · intro e t ran derived r host
    obtain ⟨e',ran',means⟩ := parse_complete derived
    cases ran.symm.trans ran'
    exact means r host

-- !Host(`a`) on a request for another host.
def hostA : Quoted := ⟨byte '`',lit "a",.inl rfl,by decide⟩
def notHostA : Disjunction := .mk (.mk (.mk 1 (.condition (lit "Host") [hostA])) []) []

theorem not_host_derives : Derives Lib.plain (lit "!Host(`a`)") notHostA := by
  refine ⟨?_,by decide,⟨⟨lit "a",rfl,by decide⟩,trivial⟩,trivial⟩
  have blank : ([] : GoString).all isSpace := rfl
  exact .cons blank (.cons blank (.cons blank (.cons blank (.cons blank (.nil blank)))))

theorem parse_exact_not_host : ∃ e, Parse Lib.plain (lit "!Host(`a`)") = .ok e ∧
    Derives Lib.plain (lit "!Host(`a`)") notHostA ∧
    ∀ r host, e.Match Lib.plain r host = notHostA.reading Lib.plain r host := by
  obtain ⟨accepted,same⟩ := parse_exact Lib.plain (lit "!Host(`a`)")
  obtain ⟨e,ran⟩ := accepted.mpr ⟨_,not_host_derives⟩
  exact ⟨e,ran,not_host_derives,same e notHostA ran not_host_derives⟩

end Gateon.Rule
