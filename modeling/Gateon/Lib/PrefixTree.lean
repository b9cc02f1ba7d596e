import Mathlib.Data.List.Basic

-- A tree of paths in which a lookup succeeds at the first node marked as an end.
namespace PrefixTree

inductive Node (K : Type) where
  | node (children : K → Option (Node K)) (isEnd : Bool)

variable {K : Type}

def Node.new : Node K := .node (fun _ => none) false
def Node.ended : Node K → Node K
  | .node children _ => .node children true

def Node.search : Node K → List K → Bool
  | .node _ true,_ => true
  | .node _ false,[] => false
  | .node children false,k :: rest =>
    match children k with
    | none => false
    | some next => next.search rest

@[simp] theorem search_new (key : List K) : (Node.new : Node K).search key = false := by
  cases key <;> rfl

@[simp] theorem search_ended (n : Node K) (key : List K) : n.ended.search key := by
  cases n
  cases key <;> rfl

variable [DecidableEq K]

def Node.onChild (k : K) (f : Node K → Node K) : Node K → Node K
  | .node children isEnd => .node (fun j => if j = k then some (f ((children k).getD .new)) else children j) isEnd

def Node.descend (f : Node K → Node K) : List K → Node K → Node K
  | [],n => f n
  | k :: path,n => n.onChild k (Node.descend f path)

def Node.markAll (ks : List K) (n : Node K) : Node K := ks.foldl (fun n k => n.onChild k .ended) n
def Adds (f : Node K → Node K) (more : List K → Bool) : Prop := ∀ n key, (f n).search key = (n.search key || more key)

omit [DecidableEq K] in
theorem adds_ended : Adds (Node.ended : Node K → Node K) fun _ => true := by
  intro n key
  simp

-- A marked node answers before its children are asked, so what is added below it is never seen.
theorem adds_onChild (adds : Adds f more) (k : K) :
    Adds (Node.onChild k f) fun key => match key with
      | [] => false
      | j :: rest => decide (j = k) && more rest := by
  intro n key
  obtain ⟨children,isEnd⟩ := n
  cases isEnd with
  | true => simp [Node.onChild,Node.search]
  | false =>
    cases key with
    | nil => rfl
    | cons j rest =>
      by_cases same : j = k
      · subst j
        simp only [Node.onChild,Node.search,↓reduceIte,adds _ rest,decide_true,Bool.true_and]
        cases children k <;> simp
      · simp [Node.onChild,Node.search,same]

theorem adds_descend (adds : Adds f more) (path : List K) :
    Adds (Node.descend f path) fun key => path.isPrefixOf key && more (key.drop path.length) := by
  induction path with
  | nil => intro n key; simpa [Node.descend] using adds n key
  | cons k path ih =>
    intro n key
    have below := adds_onChild ih k n key
    cases key with
    | nil => simpa [Node.descend] using below
    | cons j rest =>
      have flip : (k == j) = decide (j = k) := by
        rw [Bool.eq_iff_iff,beq_iff_eq,decide_eq_true_eq]
        exact eq_comm
      simpa [Node.descend,List.isPrefixOf,flip,Bool.and_assoc] using below

theorem adds_markAll (ks : List K) :
    Adds (Node.markAll ks) fun key => match key with
      | [] => false
      | j :: _ => decide (j ∈ ks) := by
  induction ks with
  | nil => intro n key; cases key <;> simp [Node.markAll]
  | cons k ks ih =>
    intro n key
    have first := adds_onChild adds_ended k n key
    have rest := ih (n.onChild k .ended) key
    rw [first] at rest
    change (Node.markAll ks (n.onChild k .ended)).search key = _
    rw [rest]
    cases key with
    | nil => simp
    | cons j _ => simp [Bool.or_assoc,Bool.decide_or]

end PrefixTree
