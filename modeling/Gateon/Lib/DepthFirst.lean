import Mathlib.Data.List.Nodup

-- Depth-first search of a graph given by name, which may be told to stop.
namespace DepthFirst
open List Option

inductive Item (N : Type) where
  | visit (n : N)
  | stop

structure Found (N : Type) where
  seen : List N
  height : Nat
  stopped : Bool

variable {N : Type}

def scan (enter : N → List N → Option (Found N)) : List (Item N) → List N → Option (Found N)
  | [],seen => some ⟨seen,0,false⟩
  | .stop :: _,seen => some ⟨seen,0,true⟩
  | .visit n :: rest,seen => (enter n seen).bind fun first =>
      if first.stopped then some first
      else (scan enter rest first.seen).map fun later => ⟨later.seen,max first.height later.height,later.stopped⟩

section
variable [DecidableEq N]

-- A node that is unknown or was entered before is passed over; `fuel` bounds the branch.
def enter (next : N → Option (List (Item N))) : Nat → N → List N → Option (Found N)
  | fuel,n,seen =>
    if n ∈ seen then some ⟨seen,0,false⟩
    else
      match next n,fuel with
      | none,_ => some ⟨seen,0,false⟩
      | some _,0 => none
      | some items,fuel + 1 => (scan (enter next fuel) items (seen ++ [n])).map fun below => {below with height := below.height + 1}

variable {next : N → Option (List (Item N))}

theorem enter_seen (mem : n ∈ seen) (fuel : Nat) : enter next fuel n seen = some ⟨seen,0,false⟩ := by
  unfold enter
  rw [if_pos mem]

theorem enter_unknown (fresh : n ∉ seen) (unknown : next n = none) (fuel : Nat) : enter next fuel n seen = some ⟨seen,0,false⟩ := by
  unfold enter
  rw [if_neg fresh,unknown]

theorem enter_spent (fresh : n ∉ seen) (there : next n = some items) : enter next 0 n seen = none := by
  unfold enter
  rw [if_neg fresh,there]

theorem enter_fresh (fresh : n ∉ seen) (there : next n = some items) (fuel : Nat) : enter next (fuel + 1) n seen =
      (scan (enter next fuel) items (seen ++ [n])).map fun below => {below with height := below.height + 1} := by
  rw [enter.eq_def]
  simp only [if_neg fresh,there]

end

theorem scan_append (enter : N → List N → Option (Found N)) (a b : List (Item N)) (seen : List N) :
    scan enter (a ++ b) seen = (scan enter a seen).bind fun first => if first.stopped then some first
      else (scan enter b first.seen).map fun later => {later with height := max first.height later.height} := by
  induction a generalizing seen with
  | nil => simp only [nil_append,scan,bind_some,Nat.zero_max]; cases scan enter b seen <;> rfl
  | cons item rest ih =>
    cases item with
    | stop => rfl
    | visit n =>
      simp only [cons_append,scan]
      cases enter n seen with
      | none => rfl
      | some first =>
        simp only [bind_some]
        cases halted : first.stopped with
        | true => simp [halted]
        | false =>
          rw [ih]
          cases scan enter rest first.seen with
          | none => rfl
          | some middle =>
            cases ended : middle.stopped with
            | true => simp [ended]
            | false =>
              simp only [bind_some,ended,map_some,Bool.false_eq_true,if_false]
              cases scan enter b middle.seen with
              | none => rfl
              | some last => simp [Nat.max_assoc]

-- What a search of `items` may come to.
inductive Within (next : N → Option (List (Item N))) : List (Item N) → Item N → Prop
  | here (held : item ∈ items) : Within next items item
  | through (held : .visit n ∈ items) (there : next n = some entered) (deeper : Within next entered item) : Within next items item

def Clear (next : N → Option (List (Item N))) (seen : List N) (items : List (Item N)) : Prop :=
  .stop ∉ items ∧ ∀ n, .visit n ∈ items → next n ≠ none → n ∈ seen

structure Searched (next : N → Option (List (Item N))) (names : List N) (items : List (Item N)) (seen : List N) (r : Found N) : Prop where
  more : ∃ new, r.seen = seen ++ new ∧ ∀ n ∈ new, n ∈ names
  nodup : r.seen.Nodup
  clear : r.stopped = false → Clear next r.seen items
  closed : r.stopped = false → ∀ n ∈ r.seen, n ∉ seen → ∀ inner, next n = some inner → Clear next r.seen inner
  found : r.stopped → Within next items .stop

variable {next : N → Option (List (Item N))}

theorem Within.mono (within : Within next items item) (more : ∀ x ∈ items, x ∈ items') : Within next items' item := by
  cases within with
  | here held => exact .here (more _ held)
  | through held there deeper => exact .through (more _ held) there deeper

theorem Clear.misses (clear : Clear next seen items) (closed : ∀ n ∈ seen, ∀ inner, next n = some inner → Clear next seen inner)
    (within : Within next items item) : item ≠ .stop := by
  induction within with
  | here held => rintro rfl; exact clear.1 held
  | through held there _ ih => exact ih (closed _ (clear.2 _ held (by simp [there])) _ there)

theorem Searched.stay (nodup : seen.Nodup) (clear : stopped = false → Clear next seen items) (found : stopped → Within next items .stop) :
    Searched next names items seen ⟨seen,0,stopped⟩ :=
  ⟨⟨[],(append_nil _).symm,nofun⟩,nodup,clear,fun _ _ mem fresh => absurd mem fresh,found⟩

theorem Searched.passed (nodup : seen.Nodup) (held : next n ≠ none → n ∈ seen) : Searched next names [.visit n] seen ⟨seen,0,false⟩ := by
  refine .stay nodup (fun _ => ⟨by simp,?_⟩) nofun
  intro m visits there
  cases mem_singleton.mp visits
  exact held there

theorem Searched.andThen (first : Searched next names a seen r) (going : r.stopped = false) (later : Searched next names b r.seen r') :
    Searched next names (a ++ b) seen ⟨r'.seen,height,r'.stopped⟩ := by
  obtain ⟨new,grown,known⟩ := first.more
  obtain ⟨new',grown',known'⟩ := later.more
  have wider {inner} (clear : Clear next r.seen inner) : Clear next r'.seen inner :=
    ⟨clear.1,fun n visits there => grown' ▸ mem_append_left _ (clear.2 n visits there)⟩
  refine ⟨⟨new ++ new',by rw [grown',grown,append_assoc],?_⟩,later.nodup,?_,?_,?_⟩
  · intro n mem
    exact (mem_append.mp mem).elim (known n) (known' n)
  · intro on
    have one := wider (first.clear going)
    have two := later.clear on
    exact ⟨by simp [one.1,two.1],fun n visits => (mem_append.mp visits).elim (one.2 n) (two.2 n)⟩
  · intro on n mem fresh inner there
    by_cases early : n ∈ r.seen
    · exact wider (first.closed going n early fresh inner there)
    · exact later.closed on n mem early inner there
  · exact fun stopped => (later.found stopped).mono fun _ mem => mem_append_right _ mem

theorem scan_searched {bound : List N → Prop}
    (good : ∀ n seen, seen.Nodup → bound seen → ∃ r, into n seen = some r ∧ Searched next names [.visit n] seen r)
    (kept : ∀ seen more : List N, bound seen → bound (seen ++ more)) (items : List (Item N)) (seen : List N)
    (nodup : seen.Nodup) (small : bound seen) : ∃ r, scan into items seen = some r ∧ Searched next names items seen r := by
  induction items generalizing seen with
  | nil => exact ⟨_,rfl,.stay nodup (fun _ => by simp [Clear]) nofun⟩
  | cons item rest ih =>
    cases item with
    | stop => exact ⟨_,rfl,.stay nodup nofun fun _ => .here mem_cons_self⟩
    | visit n =>
      obtain ⟨first,entered,searched⟩ := good n seen nodup small
      simp only [scan,entered,bind_some]
      cases halted : first.stopped with
      | true =>
        refine ⟨first,rfl,{searched with clear := ?_,found := fun on => (searched.found on).mono (by simp)}⟩
        intro going
        cases halted.symm.trans going
      | false =>
        obtain ⟨new,grown,_⟩ := searched.more
        obtain ⟨later,ran,searched'⟩ := ih first.seen searched.nodup (grown ▸ kept seen new small)
        exact ⟨_,by rw [ran]; rfl,searched.andThen halted searched'⟩

variable [DecidableEq N]

def left (names seen : List N) : Nat := (names.filter (· ∉ seen)).length

theorem left_append (names seen more : List N) : left names (seen ++ more) ≤ left names seen := by
  apply List.Sublist.length_le
  apply monotone_filter_right
  intro n missing
  simp only [decide_eq_true_eq,mem_append,not_or] at missing ⊢
  exact missing.1

theorem left_entered {n : N} (mem : n ∈ names) (fresh : n ∉ seen) : left names (seen ++ [n]) < left names seen := by
  have rest : names.filter (· ∉ seen ++ [n]) = (names.filter (· ∉ seen)).filter (· ≠ n) := by
    rw [List.filter_filter]
    exact filter_congr fun m _ => by simp [and_comm]
  rw [left,rest]
  exact length_filter_lt_length_iff_exists.mpr ⟨n,List.mem_filter.mpr ⟨mem,by simpa using fresh⟩,by simp⟩

theorem enter_pass (held : next n ≠ none → n ∈ seen) (fuel : Nat) : enter next fuel n seen = some ⟨seen,0,false⟩ := by
  by_cases mem : n ∈ seen
  · exact enter_seen mem fuel
  · exact enter_unknown mem (not_not.mp fun there => mem (held there)) fuel

theorem enter_searched (next : N → Option (List (Item N))) (names : List N) (known : ∀ n, next n ≠ none → n ∈ names) (fuel : Nat) (n : N)
    (seen : List N) (nodup : seen.Nodup) (enough : left names seen ≤ fuel) :
    ∃ r, enter next fuel n seen = some r ∧ Searched next names [.visit n] seen r := by
  induction fuel generalizing n seen with
  | zero =>
    have held : next n ≠ none → n ∈ seen := by
      intro there
      by_contra fresh
      have shrinks := left_entered (known n there) fresh
      omega
    exact ⟨_,enter_pass held 0,.passed nodup held⟩
  | succ fuel ih =>
    by_cases held : next n ≠ none → n ∈ seen
    · exact ⟨_,enter_pass held _,.passed nodup held⟩
    obtain ⟨there,fresh⟩ := Classical.not_imp.mp held
    obtain ⟨items,found⟩ := ne_none_iff_exists'.mp there
    have shrinks := left_entered (known n there) fresh
    have distinct : (seen ++ [n]).Nodup := by
      apply nodup_append.mpr
      refine ⟨nodup,nodup_singleton n,?_⟩
      intro a held b own same
      cases mem_singleton.mp own
      exact fresh (same ▸ held)
    obtain ⟨below,ran,searched⟩ := scan_searched ih (fun seen more => Nat.le_trans (left_append names seen more))
      items (seen ++ [n]) distinct (by omega)
    obtain ⟨new,grown,inside⟩ := searched.more
    refine ⟨{below with height := below.height + 1},by rw [enter_fresh fresh found,ran]; rfl,⟨n :: new,?_,?_⟩,searched.nodup,?_,?_,?_⟩
    · rw [grown,append_assoc]; rfl
    · exact forall_mem_cons.mpr ⟨known n there,inside⟩
    · refine fun _ => ⟨by simp,fun m visits _ => ?_⟩
      cases mem_singleton.mp visits
      simp [grown]
    · intro going m mem missing inner there'
      by_cases same : m = n
      · cases same; cases found.symm.trans there'; exact searched.clear going
      · exact searched.closed going m mem (by simp [missing,same]) inner there'
    · exact fun on => .through (mem_singleton_self _) found (searched.found on)

end DepthFirst
