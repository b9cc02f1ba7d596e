import Gateon.Security.Redact

namespace Gateon.Security.Redact
open Go CutScan Nat
open Option hiding or_assoc
open List hiding head getElem?_eq_some_iff

theorem segment_take (t : GoString) (m : Nat) : segment (t.take m) = (segment t).filter (· ≤ m) := by
  unfold segment
  dsimp only
  rw [run_take]
  by_cases ends : run isBase64URL t < m
  · rw [min_eq_left ends.le,getElem?_take,if_pos ends]
    split
    · rw [Option.filter_some_pos (by simp; omega)]
    · rfl
  · rw [Nat.min_eq_right (by omega),getElem?_take,if_neg (Nat.lt_irrefl m)]
    split
    · rename_i dotted; simp at dotted
    · split
      · rw [Option.filter_some_neg (by simp; omega)]
      · rfl

def jwtHead (t : GoString) : Option Nat := (segment t).bind fun one => (segment (t.drop one)).map fun two => one + two

theorem jwtEnd_head (t : GoString) : jwtEnd t = (jwtHead t).map fun head => head + run isBase64URL (t.drop head) := by
  unfold jwtEnd jwtHead
  cases segment t with
  | none => rfl
  | some one => cases found : segment (t.drop one) <;> simp [found]

theorem segment_long (found : segment t = some l) : 4 < l := by
  obtain ⟨long,⟨⟩⟩ := ite_none_right_eq_some.mp found
  simp only [Bool.and_eq_true,decide_eq_true_eq] at long
  omega

theorem jwtHead_take (t : GoString) (m : Nat) : jwtHead (t.take m) = (jwtHead t).filter (· ≤ m) := by
  unfold jwtHead
  rw [segment_take]
  cases segment t with
  | none => rfl
  | some one =>
    by_cases fits : one ≤ m
    · rw [Option.filter_some_pos (by simpa using fits),bind_some,bind_some,drop_take,segment_take]
      cases segment (t.drop one) with
      | none => rfl
      | some two =>
        by_cases both : one + two ≤ m
        · rw [Option.filter_some_pos (by simp; omega)]; simp [Option.filter,both]
        · rw [Option.filter_some_neg (by simp; omega)]; simp [Option.filter,both]
    · rw [Option.filter_some_neg (by simpa using fits),bind_none,bind_some]
      cases segment (t.drop one) with
      | none => rfl
      | some two => rw [map_some,Option.filter_some_neg (by simp; omega)]

theorem jwtHead_long (found : jwtHead t = some head) : 3 < head := by
  obtain ⟨one,first,rest⟩ := bind_eq_some_iff.mp found
  obtain ⟨two,_,rfl⟩ := map_eq_some_iff.mp rest
  have := segment_long first
  omega

section
variable {lost : Nat → Prop}

theorem jwtAt_cut (fuel : Nat) (gone : ∀ l i j k, jwtAt done rest = .hit l i j k → m < j → jwtEnd ((rest.drop i).take (m-i)) = none →
      ∀ x, i ≤ x → x < m → lost (done.length + x)) : StepCut jwtAt lost fuel done rest m := by
  have starts := hasPrefix_take rest (lit "eyJ") m
  -- What looks like a token and is none is passed in both texts.
  have passes (here : hasPrefix rest (lit "eyJ")) (no : done.getLast?.any isBase64URL ∨ jwtHead rest = none) :
      StepCut jwtAt lost fuel done rest m := by
    have whole : jwtAt done rest = .pass 3 := by rcases no with no | no <;> simp [jwtAt,here,jwtEnd_head,no]
    by_cases fits : 3 ≤ m
    · refine .same ?_
      have short : hasPrefix (rest.take m) (lit "eyJ") := by
        rw [starts,here]
        exact decide_eq_true fits
      rw [whole]
      rcases no with no | no <;> simp [jwtAt,short,jwtEnd_head,jwtHead_take,no]
    · exact .pass whole (Nat.le_of_lt (Nat.lt_of_not_le fits))
  by_cases token : hasPrefix rest (lit "eyJ") ∧ done.getLast?.any isBase64URL = false
  · obtain ⟨here,apart⟩ := token
    cases found : jwtHead rest with
    | none => exact passes here (.inr found)
    | some head =>
      have long := jwtHead_long found
      have whole : jwtAt done rest = .hit Mask 0 (head + run isBase64URL (rest.drop head)) (head + run isBase64URL (rest.drop head)) := by
        simp [jwtAt,here,apart,jwtEnd_head,found]
      by_cases fits : head ≤ m
      · have short : hasPrefix (rest.take m) (lit "eyJ") := by
          rw [starts,here]
          exact decide_eq_true (show 3 ≤ m by omega)
        have ends : jwtEnd (rest.take m) = some (min (head + run isBase64URL (rest.drop head)) m) := by
          rw [jwtEnd_head,jwtHead_take,found,Option.filter_some_pos (by simpa using fits),map_some,drop_take,run_take]
          congr 1
          omega
        have cut : jwtAt done (rest.take m) = .hit Mask 0 (min (head + run isBase64URL (rest.drop head)) m)
            (min (head + run isBase64URL (rest.drop head)) m) := by
          simp [jwtAt,short,apart,ends]
        by_cases inside : head + run isBase64URL (rest.drop head) ≤ m
        · refine .same ?_; rw [cut,whole,min_eq_left inside]
        · refine .hit whole (Nat.le_of_lt (Nat.lt_of_not_le inside)) fun x _ _ below => ?_
          rw [min_eq_right (by omega)] at cut
          exact .inl ⟨_,_,_,_,cut,zero_le x,below⟩
      · -- The second dot is behind the cut.
        refine .hit whole (by omega) fun x low _ below => .inr (gone _ _ _ _ whole (by omega) ?_ x low below)
        rw [drop_zero,Nat.sub_zero,jwtEnd_head,jwtHead_take,found,Option.filter_some_neg (by simpa using fits)]
        rfl
  · by_cases here : hasPrefix rest (lit "eyJ")
    · exact passes here (.inl (Bool.of_not_eq_false fun apart => token ⟨here,apart⟩))
    refine .same ?_
    have other : hasPrefix rest (lit "eyJ") = false := Bool.eq_false_iff.mpr here
    rw [other,Bool.false_and] at starts
    simp [jwtAt,other,starts]

theorem plainPrefixAt_take (u : Tables) (rest : GoString) (m : Nat) :
    (plainPrefixAt u rest = none → plainPrefixAt u (rest.take m) = none) ∧
      ∀ start, plainPrefixAt u rest = some start → start ≤ m → plainPrefixAt u (rest.take m) = some start := by
  unfold plainPrefixAt
  induction plainTokenPrefixes with
  | nil => simp
  | cons p ps hyp =>
    rw [find?_cons,find?_cons,hasPrefixFold_take]
    cases hasPrefixFold u rest p with
    | false => exact hyp
    | true =>
      refine ⟨by simp,fun start found fits => ?_⟩
      have length : p.length = start := by simpa using found
      simp [length,fits]

theorem plainPrefixAt_long (found : plainPrefixAt u rest = some start) : 0 < start := by
  obtain ⟨p,first,rfl⟩ := map_eq_some_iff.mp found
  have filled : ∀ p ∈ plainTokenPrefixes, 0 < p.length := by decide
  exact filled p (mem_of_find?_eq_some first)

def prefixStop (rest : GoString) (start : Nat) : Nat := start + run (fun b => isBase64URL b || b == byte '.') (rest.drop start)

theorem prefixStop_take (rest : GoString) (fits : start ≤ m) : prefixStop (rest.take m) start = min (prefixStop rest start) m := by
  unfold prefixStop
  rw [drop_take,run_take]
  omega

theorem prefixAt_found (done : GoString) (first : plainPrefixStart c) (found : plainPrefixAt u (c :: t) = some start) : prefixAt u done (c :: t) =
    if start < prefixStop (c :: t) start then .hit Mask start (prefixStop (c :: t) start) (prefixStop (c :: t) start)
    else .pass (prefixStop (c :: t) start) := by
  simp only [prefixAt,first,Bool.not_true,Bool.false_eq_true,if_false,found]
  rfl

theorem prefixAt_cut (u : Tables) (fuel : Nat) (positive : 0 < m) : StepCut (prefixAt u) lost fuel done rest m := by
  cases rest with
  | nil => exact .same (by simp)
  | cons c t =>
    have head := take_head (c := c) (t := t) positive
    by_cases first : plainPrefixStart c
    · obtain ⟨missing,kept⟩ := plainPrefixAt_take u (c :: t) m
      cases found : plainPrefixAt u (c :: t) with
      | none =>
        have cut := missing found
        rw [head] at cut
        refine .same ?_
        simp [head,prefixAt,first,found,cut]
      | some start =>
        have whole := prefixAt_found done first found
        have late : start ≤ prefixStop (c :: t) start := Nat.le_add_right ..
        by_cases fits : start ≤ m
        · have cut := kept start found fits
          have stop := prefixStop_take (c :: t) fits
          rw [head] at cut stop
          have short := prefixAt_found done first cut
          by_cases inside : prefixStop (c :: t) start ≤ m
          · refine .same ?_; rw [head,whole,short,stop,min_eq_left inside]
          split at whole
          · refine .hit whole (by omega) fun x low _ below => ?_
            rw [stop,min_eq_right (by omega),if_pos (by omega)] at short
            exact .inl ⟨_,_,_,_,by rw [head,short],low,below⟩
          · exact .pass whole (by omega)
        · -- The token of the whole text starts behind the cut.
          split at whole
          · exact .hit whole (by omega) fun x low _ below => by omega
          · exact .pass whole (by omega)
    · refine .same ?_; simp [head,prefixAt,first]

theorem run_drop (early : a ≤ run p t) : run p (t.drop a) = run p t - a := by
  induction t generalizing a with
  | nil => simp [run]
  | cons c t hyp =>
    cases a with
    | zero => simp
    | succ a =>
      by_cases taken : p c
      · have longer : run p (c :: t) = run p t + 1 := by simp [run,taken]
        rw [drop_succ_cons,longer,hyp (by omega)]
        omega
      · simp [run,taken] at early

theorem skipSpace_blank {rest : GoString} {w : Nat} (blank : (rest[w]?).any isBlank) : 0 < skipSpace (rest.drop w) := by
  cases at_ : rest[w]? with
  | none => simp [at_] at blank
  | some c =>
    obtain ⟨inside,rfl⟩ := List.getElem?_eq_some_iff.mp at_
    rw [drop_eq_getElem_cons inside,skipSpace,run,takeWhile_cons_of_pos]
    · simp
    · rw [at_,any_some,isBlank] at blank
      simp only [isSpace]
      grind

theorem schemeWord_length (found : schemeWord u rest = some (w,basic)) : w = 5 ∨ w = 6 := by
  unfold schemeWord at found
  split at found
  · cases found; exact .inr rfl
  · split at found
    · cases found; exact .inl rfl
    · cases found

theorem schemeWord_take (u : Tables) (rest : GoString) (m : Nat) : schemeWord u (rest.take m) =
    if hasPrefixFold u rest (lit "bearer") && decide (6 ≤ m) then some (6,false)
    else if hasPrefixFold u rest (lit "basic") && decide (5 ≤ m) then some (5,true) else none := by
  unfold schemeWord
  rw [hasPrefixFold_take,hasPrefixFold_take]
  rfl

theorem schemeWord_before (found : schemeWord u rest = some (w,basic)) (before : w < m) : schemeWord u (rest.take m) = some (w,basic) := by
  have long := schemeWord_length found
  rw [schemeWord_take,← found,schemeWord]
  cases bearer : hasPrefixFold u rest (lit "bearer") with
  | true =>
    rw [schemeWord,if_pos bearer] at found
    cases found
    rw [if_pos (by simpa using before.le)]
    rfl
  | false => simp [show 5 ≤ m by omega]

theorem schemeWord_behind (found : schemeWord u rest = some (w,basic)) (behind : m ≤ w) (cut : schemeWord u (rest.take m) = some (w',basic')) :
    m ≤ w' := by
  rw [schemeWord_take] at cut
  split at cut
  · cases cut; rcases schemeWord_length found with rfl | rfl <;> omega
  rename_i other
  obtain ⟨_,⟨⟩⟩ := ite_none_right_eq_some.mp cut
  rcases schemeWord_length found with rfl | rfl
  · exact behind
  by_contra beyond
  have bearer : hasPrefixFold u rest (lit "bearer") := by
    by_contra basic
    rw [schemeWord,if_neg basic] at found
    split at found <;> cases found
  exact other (by simp [bearer]; omega)

theorem schemeAt_take (u : Tables) (rest : GoString) (m : Nat) : (schemeAt u rest = none → schemeAt u (rest.take m) = none) ∧
    ∀ start basic, schemeAt u rest = some (start,basic) →
      schemeAt u (rest.take m) = some (min start m,basic) ∨ (schemeAt u (rest.take m) = none ∧ m < start) := by
  rw [schemeAt,schemeAt]
  cases found : schemeWord u rest with
  | none =>
    have cut : schemeWord u (rest.take m) = none := by
      unfold schemeWord at found
      rw [schemeWord_take]
      split at found
      · cases found
      · split at found
        · cases found
        · simp_all
    simp [cut]
  | some word =>
    obtain ⟨w,basic⟩ := word
    by_cases before : w < m
    · rw [schemeWord_before found before,bind_some,bind_some,afterWord,afterWord]
      rw [getElem?_take,if_pos before]
      refine ⟨by split <;> simp,?_⟩
      intro start basic' spaced
      obtain ⟨_,⟨⟩⟩ := ite_none_right_eq_some.mp spaced
      left
      rw [skipSpace_take rest w m before.le,if_pos ‹_›]
    have cut : (schemeWord u (rest.take m)).bind (afterWord (rest.take m)) = none := by
      cases short : schemeWord u (rest.take m) with
      | none => rfl
      | some word' =>
        have := schemeWord_behind found (Nat.le_of_not_lt before) short
        have gone : (rest.take m)[word'.1]? = none := by
          rw [getElem?_take,if_neg (not_lt.mpr this)]
        simp [afterWord,gone]
    rw [cut]
    refine ⟨fun _ => rfl,fun start basic' spaced => .inr ⟨rfl,?_⟩⟩
    rw [bind_some,afterWord] at spaced
    obtain ⟨blank,⟨⟩⟩ := ite_none_right_eq_some.mp spaced
    have := skipSpace_blank blank
    omega

theorem schemeAt_long (found : schemeAt u rest = some (start,basic)) : 5 ≤ start := by
  rw [schemeAt] at found
  obtain ⟨⟨w,b⟩,word,after⟩ := bind_eq_some_iff.mp found
  have := schemeWord_length word
  unfold afterWord at after
  split at after
  · cases after
    omega
  · cases after

theorem schemeAt_later (here : schemeAt u rest = some (start,basic)) (later : 0 < d)
    (there : schemeAt u (rest.drop d) = some (start',basic')) : start ≤ d + start' := by
  rw [schemeAt] at here there
  obtain ⟨⟨w,b⟩,word,after⟩ := bind_eq_some_iff.mp here
  obtain ⟨⟨w',b'⟩,word',after'⟩ := bind_eq_some_iff.mp there
  have long := schemeWord_length word
  have long' := schemeWord_length word'
  unfold afterWord at after after'
  obtain ⟨_,after⟩ := ite_none_right_eq_some.mp after
  split at after'
  · cases after
    cases after'
    rw [drop_drop]
    dsimp only
    by_cases within : d + w' - w ≤ skipSpace (rest.drop w)
    · have rest' := run_drop (p := isSpace) (t := rest.drop w) within
      rw [drop_drop,show w + (d + w' - w) = d + w' by omega] at rest'
      unfold skipSpace at within ⊢
      omega
    · omega
  · cases after'

theorem schemeMove_first (first : (decide (c ||| 32 ≠ byte 'b') || done.getLast?.any isAlnum) = false)
    (found : schemeAt u (c :: t) = some (start,basic)) : schemeMove u done (c :: t) =
      if recognised basic (((c :: t).drop start).take (run isToken68 ((c :: t).drop start))) then
        .hit basic start (start + run isToken68 ((c :: t).drop start)) (start + run isToken68 ((c :: t).drop start))
      else .pass 1 := by
  unfold schemeMove
  dsimp only
  rw [first,if_neg (by simp),found]
  dsimp only
  rw [Nat.add_sub_cancel_left]

theorem recognised_empty (basic : Bool) : recognised basic [] = false := by cases basic <;> rfl

theorem schemeMove_hit (hit : schemeMove u done rest = .hit l i j k) : schemeAt u rest = some (i,l) := by
  unfold schemeMove at hit
  split at hit
  · cases hit
  split at hit
  · cases hit
  split at hit
  · cases hit
  dsimp only at hit
  split at hit
  · cases hit; assumption
  · cases hit

theorem schemeMove_floor {done rest before after : GoString} (whole : schemeMove u done rest = .pass 1) (found : schemeAt u rest = some (start,basic))
    (splits : before ++ after = done ++ rest) (later : done.length ≤ before.length) (hit : schemeMove u before after = .hit l i j k) :
    done.length + start ≤ before.length + i := by
  by_cases same : before.length = done.length
  · obtain ⟨rfl,rfl⟩ := append_inj splits same
    rw [whole] at hit
    cases hit
  · have there := schemeMove_hit hit
    rw [later_text splits later] at there
    have := schemeAt_later found (by omega) there
    omega

theorem schemeMove_cut {done rest : GoString} {m : Nat} (u : Tables) (fuel : Nat) (positive : 0 < m)
    (gone : ∀ basic i j k, schemeMove u done rest = .hit basic i j k → m < j → recognised basic ((rest.drop i).take (m-i)) = false →
      ∀ x, i ≤ x → x < m → lost (done.length + x)) : StepCut (schemeMove u) lost fuel done rest m := by
  cases rest with
  | nil => exact .same (by simp)
  | cons c t =>
    have head := take_head (c := c) (t := t) positive
    cases first : decide (c ||| 32 ≠ byte 'b') || done.getLast?.any isAlnum with
    | true =>
      refine .same ?_
      rw [head]
      unfold schemeMove
      dsimp only
      rw [first,if_pos rfl,if_pos rfl]
    | false =>
      obtain ⟨missing,kept⟩ := schemeAt_take u (c :: t) m
      have none_move (t : GoString) (none : schemeAt u (c :: t) = none) : schemeMove u done (c :: t) = .pass 1 := by
        unfold schemeMove
        dsimp only
        rw [first,if_neg (by simp),none]
      cases found : schemeAt u (c :: t) with
      | none =>
        refine .same ?_
        have cut := missing found
        rw [head] at cut ⊢
        rw [none_move t found,none_move _ cut]
      | some scheme =>
        obtain ⟨start,basic⟩ := scheme
        have whole := schemeMove_first first found
        generalize length : run isToken68 ((c :: t).drop start) = r at whole
        by_cases before : start < m
        · have cut := (kept start basic found).resolve_right fun behind => lt_asymm before behind.2
          rw [min_eq_left before.le,head] at cut
          have short := schemeMove_first first cut
          rw [← head,drop_take,run_take,length] at short
          by_cases ends : r ≤ m - start
          · refine .same ?_; rw [short,whole,min_eq_left ends,take_take,min_eq_left ends]
          rw [Nat.min_eq_right (by omega),take_take,Nat.min_self,show start + (m - start) = m by omega] at short
          cases known : recognised basic (((c :: t).drop start).take r) with
          | true =>
            rw [known,if_pos rfl] at whole
            refine .hit whole (by omega) fun x low _ below => ?_
            cases kept : recognised basic (((c :: t).drop start).take (m - start)) with
            | true => rw [kept,if_pos rfl] at short; exact .inl ⟨_,_,_,_,short,low,below⟩
            | false => exact .inr (gone basic start _ _ whole (by omega) kept x low below)
          | false =>
            rw [known,if_neg (by simp)] at whole
            cases kept : recognised basic (((c :: t).drop start).take (m - start)) with
            | true =>
              rw [kept,if_pos rfl] at short
              refine .rest basic start m m short (le_refl m) (scan_start _ _ _ rfl ?_)
              intro before' after splits later l i j k hit
              exact schemeMove_floor whole found splits later hit
            | false => rw [kept,if_neg (by simp)] at short; exact .same (by rw [short,whole])
        · have cut : schemeMove u done ((c :: t).take m) = .pass 1 := by
            rcases kept start basic found with some | ⟨none,_⟩
            · rw [Nat.min_eq_right (by omega),head] at some
              rw [head,schemeMove_first first some,← head,drop_take,Nat.sub_self]
              simp [recognised_empty]
            · rw [head] at none ⊢; exact none_move _ none
          cases known : recognised basic (((c :: t).drop start).take r) with
          | true =>
            rw [known,if_pos rfl] at whole
            exact .hit whole (by omega) fun x low _ below => by omega
          | false => rw [known,if_neg (by simp)] at whole; exact .same (by rw [cut,whole])

end

theorem blankLine_cons (c : UInt8) (t : GoString) : blankLine (c :: t) =
    if hasPrefix (c :: t) (lit "\r\n\r\n") then some 4 else if hasPrefix (c :: t) (lit "\n\n") then some 2 else (blankLine t).map (· + 1) := by
  unfold blankLine hasPrefix
  rw [index,index]
  cases (lit "\r\n\r\n").isPrefixOf (c :: t) <;> cases (lit "\n\n").isPrefixOf (c :: t) <;>
    cases index (lit "\r\n\r\n") t <;> cases index (lit "\n\n") t <;> simp
  split <;> simp

theorem blankLine_long (found : blankLine t = some e) : 2 ≤ e := by
  induction t generalizing e with
  | nil => cases found
  | cons c t hyp =>
    rw [blankLine_cons] at found
    split at found
    · cases found; omega
    · split at found
      · cases found; exact Nat.le_refl 2
      · obtain ⟨e',later,rfl⟩ := map_eq_some_iff.mp found; exact Nat.le_succ_of_le (hyp later)

theorem blankLine_take (t : GoString) (m : Nat) : blankLine (t.take m) = (blankLine t).filter (· ≤ m) := by
  induction t generalizing m with
  | nil => cases m <;> rfl
  | cons c t hyp =>
    have returns := hasPrefix_take (c :: t) (lit "\r\n\r\n") m
    have feeds := hasPrefix_take (c :: t) (lit "\n\n") m
    have four : (lit "\r\n\r\n").length = 4 := rfl
    have two : (lit "\n\n").length = 2 := rfl
    rw [four] at returns
    rw [two] at feeds
    cases m with
    | zero =>
      cases found : blankLine (c :: t) with
      | none => rfl
      | some e =>
        have := blankLine_long found
        rw [filter_some_neg (by simp; omega)]
        rfl
    | succ m =>
      rw [blankLine_cons]
      rw [take_succ_cons] at returns feeds ⊢
      by_cases crlf : hasPrefix (c :: t) (lit "\r\n\r\n")
      · rw [if_pos crlf]
        by_cases fits : 4 ≤ m+1
        · rw [blankLine_cons,returns,crlf]; simp [fits,Option.filter]
        obtain ⟨rest,shape⟩ := isPrefixOf_iff_prefix.mp crlf
        rw [← take_succ_cons,← shape,filter_some_neg (by simpa using fits)]
        rcases m with _ | _ | _ | m
        · rfl
        · rfl
        · rfl
        · omega
      · by_cases lf : hasPrefix (c :: t) (lit "\n\n")
        · rw [if_neg crlf,if_pos lf]
          by_cases fits : 2 ≤ m+1
          · rw [blankLine_cons,returns,feeds,lf]; simp [crlf,fits,Option.filter]
          obtain ⟨rest,shape⟩ := isPrefixOf_iff_prefix.mp lf
          rw [← take_succ_cons,← shape,filter_some_neg (by simpa using fits)]
          cases m with
          | zero => rfl
          | succ m => omega
        · rw [if_neg crlf,if_neg lf,blankLine_cons,returns,feeds,hyp,filter_shift]; simp [crlf,lf]

theorem blankLine_step (found : blankLine t = some e) : ∃ e', blankLine (c :: t) = some e' ∧ e' ≤ e + 1 := by
  rw [blankLine_cons]
  have long := blankLine_long found
  split
  · rename_i crlf
    refine ⟨4,rfl,?_⟩
    obtain ⟨rest,shape⟩ := isPrefixOf_iff_prefix.mp crlf
    have tail : t = 10 :: 13 :: 10 :: rest := by have := congrArg List.tail shape; exact this.symm
    have inner : blankLine (10 :: 13 :: 10 :: rest) = (blankLine (13 :: 10 :: rest)).map (· + 1) := blankLine_cons ..
    rw [tail,inner] at found
    obtain ⟨e',later,rfl⟩ := map_eq_some_iff.mp found
    have := blankLine_long later
    omega
  · split
    · exact ⟨2,rfl,by omega⟩
    · exact ⟨e+1,by simp [found],le_rfl⟩

theorem blankLine_drop (found : blankLine (t.drop k) = some e) : ∃ e', blankLine t = some e' ∧ e' ≤ k + e := by
  induction k generalizing t with
  | zero => exact ⟨e,found,by omega⟩
  | succ k hyp =>
    cases t with
    | nil => cases found
    | cons c t =>
      obtain ⟨e',there,early⟩ := hyp found
      obtain ⟨e'',here,next⟩ := blankLine_step (c := c) there
      exact ⟨e'',here,by omega⟩

theorem partEnd_take (t : GoString) (m : Nat) (inside : m ≤ t.length) : partEnd (t.take m) = partEnd t ∨ partEnd (t.take m) = m := by
  have length : (t.take m).length = m := by rw [length_take,Nat.min_eq_left inside]
  have three : (lit "\n--").length = 3 := rfl
  unfold partEnd
  rw [index_take _ _ _ (by decide),three]
  cases index (lit "\n--") t with
  | none => exact .inr length
  | some b =>
    by_cases fits : b + 3 ≤ m
    · left
      rw [filter_some_pos (by simpa using fits)]
      have last : (t.take m)[b-1]? = t[b-1]? := by rw [getElem?_take,if_pos (by omega)]
      dsimp only
      rw [last]
    · right
      rw [filter_some_neg (by simpa using fits)]
      exact length

theorem partMove_none (blank : blankLine (rest.drop i) = none) : partMove rest i = .pass i := by
  unfold partMove partContent
  rw [blank]
  rfl

theorem partMove_some (blank : blankLine (rest.drop i) = some start) : partMove rest i =
    if 0 < partEnd (rest.drop (i+start)) then
      .hit Mask (i+start) (i+start + partEnd (rest.drop (i+start))) (i+start + partEnd (rest.drop (i+start))) else .pass i := by
  unfold partMove partContent
  rw [blank,map_some]
  dsimp only
  rw [drop_drop,Nat.add_assoc]
  by_cases filled : 0 < partEnd (rest.drop (i+start))
  · rw [if_pos filled,if_pos (by omega)]
  · rw [if_neg filled,if_neg (by omega)]

def otherPart (u : Tables) (done rest : GoString) (e : Nat) : Bool :=
  done.getLast?.any isNameByte || !onDispositionLine u done || !isCredentialParam u ((rest.drop marker.length).take e)

theorem multipartAt_named (u : Tables) (done : GoString) (starts : hasPrefix rest marker) (quoted : indexByte (rest.drop marker.length) (byte '"') = some e) :
    multipartAt u done rest = if otherPart u done rest e then .pass (marker.length + e) else partMove rest (marker.length + e) := by
  unfold multipartAt
  rw [starts,if_neg (by simp),quoted]
  rfl

theorem multipartAt_hit (hit : multipartAt u done rest = .hit l i j k) : ∃ e start, indexByte (rest.drop marker.length) (byte '"') = some e ∧
    blankLine (rest.drop (marker.length + e)) = some start ∧ i = marker.length + e + start ∧ i < j ∧ k = j := by
  by_cases starts : hasPrefix rest marker
  · cases quoted : indexByte (rest.drop marker.length) (byte '"') with
    | none =>
      unfold multipartAt at hit
      rw [starts,if_neg (by simp),quoted] at hit
      cases hit
    | some e =>
      rw [multipartAt_named u done starts quoted] at hit
      split at hit
      · cases hit
      cases blank : blankLine (rest.drop (marker.length + e)) with
      | none => rw [partMove_none blank] at hit; cases hit
      | some start =>
        rw [partMove_some blank] at hit
        split at hit
        · cases hit; exact ⟨e,start,rfl,blank,rfl,by omega,rfl⟩
        · cases hit
  · unfold multipartAt at hit
    rw [if_pos (by simp [starts])] at hit
    cases hit

theorem indexByte_drop (here : indexByte t c = some e) (there : indexByte (t.drop d) c = some e') : e ≤ d + e' := by
  obtain ⟨_,_,first⟩ := findIdx?_eq_some_iff_getElem.mp here
  obtain ⟨inside,same,_⟩ := findIdx?_eq_some_iff_getElem.mp there
  by_contra earlier
  rw [getElem_drop] at same
  exact first (d + e') (by omega) same

theorem multipartAt_floor {done rest before after : GoString} (quoted : indexByte (rest.drop marker.length) (byte '"') = some e)
    (blank : blankLine (rest.drop (marker.length + e)) = some start) (splits : before ++ after = done ++ rest)
    (later : done.length ≤ before.length) (hit : multipartAt u before after = .hit l i j k) :
    done.length + (marker.length + e + start) ≤ before.length + i := by
  obtain ⟨e',start',quoted',blank',rfl,_⟩ := multipartAt_hit hit
  generalize behind : before.length - done.length = d at *
  rw [later_text splits later,behind,drop_drop] at quoted' blank'
  have name : e ≤ d + e' := by
    refine indexByte_drop quoted ?_
    rw [drop_drop,Nat.add_comm marker.length d]
    exact quoted'
  obtain ⟨found,same,early⟩ := blankLine_drop (t := rest.drop (marker.length + e)) (k := d + e' - e) (e := start') (by
    rw [drop_drop,← blank']
    congr 2
    omega)
  rw [blank] at same
  cases same
  omega

theorem partMove_next (rest : GoString) (i : Nat) : i ≤ (partMove rest i).next := by
  cases blank : blankLine (rest.drop i) with
  | none => rw [partMove_none blank]; exact Nat.le_refl i
  | some start =>
    rw [partMove_some blank]
    split
    · exact show i ≤ i + start + _ by omega
    · exact Nat.le_refl i

theorem multipartAt_next (u : Tables) (done : GoString) (starts : hasPrefix rest marker) (quoted : indexByte (rest.drop marker.length) (byte '"') = some e) :
    marker.length + e ≤ (multipartAt u done rest).next := by
  rw [multipartAt_named u done starts quoted]
  split
  · exact le_rfl
  · exact partMove_next rest _

theorem multipartAt_cut {lost : Nat → Prop} {done rest : GoString} {m : Nat} (u : Tables) (fuel : Nat) (inside : m ≤ rest.length) :
    StepCut (multipartAt u) lost fuel done rest m := by
  have starts := hasPrefix_take rest marker m
  cases here : hasPrefix rest marker with
  | true =>
    rw [here,Bool.true_and] at starts
    cases quoted : indexByte (rest.drop marker.length) (byte '"') with
    | none =>
      have whole : multipartAt u done rest = .halt := by
        unfold multipartAt
        rw [here,if_neg (by simp),quoted]
      exact .halt whole
    | some e =>
      by_cases near : marker.length + e < m
      · have short : hasPrefix (rest.take m) marker := by
          rw [starts]
          exact decide_eq_true (by omega)
        have cut : indexByte ((rest.take m).drop marker.length) (byte '"') = some e := by
          rw [drop_take,indexByte_take,quoted,filter_some_pos (by simp; omega)]
        have name : otherPart u done (rest.take m) e = otherPart u done rest e := by
          unfold otherPart
          rw [drop_take,take_take,Nat.min_eq_left (by omega)]
        have whole := multipartAt_named u done here quoted
        have left := multipartAt_named u done short cut
        rw [name] at left
        cases other : otherPart u done rest e with
        | true => rw [other,if_pos rfl] at whole left; exact .same (by rw [left,whole])
        | false =>
          rw [other,if_neg (by simp)] at whole left
          have blank := blankLine_take (rest.drop (marker.length + e)) (m - (marker.length + e))
          rw [← drop_take] at blank
          cases found : blankLine (rest.drop (marker.length + e)) with
          | none =>
            rw [found] at blank
            exact .same (by rw [left,whole,partMove_none found,partMove_none blank])
          | some start =>
            rw [found] at blank
            rw [partMove_some found] at whole
            have behind (far : m ≤ marker.length + e + start) (left : multipartAt u done (rest.take m) = .pass (marker.length + e)) :
                StepCut (multipartAt u) lost fuel done rest m := by
              split at whole
              · exact .hit whole (by omega) fun x low _ below => by omega
              · exact .same (by rw [left,whole])
            by_cases fits : start ≤ m - (marker.length + e)
            · rw [filter_some_pos (by simpa using fits)] at blank
              rw [partMove_some blank,drop_take] at left
              rcases partEnd_take (rest.drop (marker.length + e + start)) (m - (marker.length + e + start))
                (by rw [length_drop]; omega) with same | reaches
              · rw [same] at left; exact .same (by rw [left,whole])
              rw [reaches] at left
              by_cases filled : 0 < m - (marker.length + e + start)
              · -- The boundary that ends the content may be cut: what is left of it is masked.
                rw [if_pos filled] at left
                refine .rest _ _ _ _ left (by omega) (scan_start _ _ _ rfl ?_)
                intro before after splits later l i j k hit
                exact multipartAt_floor quoted found splits later hit
              · rw [if_neg filled] at left; exact behind (by omega) left
            · rw [filter_some_neg (by simpa using fits)] at blank
              rw [partMove_none blank] at left
              exact behind (by omega) left
      · -- The name is not closed before the cut.
        refine .past (.inl (Nat.le_trans (by omega) (multipartAt_next u done here quoted))) ?_
        intro l i j k hit x low high below
        obtain ⟨e',start,quoted',_,rfl,_⟩ := multipartAt_hit hit
        rw [quoted] at quoted'
        cases quoted'
        omega
  | false =>
    rw [here,Bool.false_and] at starts
    exact .same (by simp [multipartAt,here,starts])

theorem pass_moves {look : GoString → GoString → Move L} (moves : look done rest = .pass k) (positive : 0 < k) : 0 < (look done rest).next := by
  rw [moves]
  exact positive

theorem shifted_positive (move : Move GoString) (positive : 0 < v) (moves : move ≠ .halt) : 0 < (shifted v move).next := by
  rw [shifted_next v move moves]
  omega

section
variable (u : Tables)

theorem jsonAt_progress : Progress (jsonAt u) := by
  intro done rest moves
  cases rest with
  | nil => exact absurd rfl moves
  | cons c t =>
    by_cases quote : c = byte '"'
    · subst quote
      cases closed : stringEnd t with
      | none =>
        simp [jsonAt,closed] at moves
      | some l =>
        rw [jsonAt_member u done closed]
        split
        · refine shifted_positive _ ?_ (jsonValue_moves _)
          unfold memberValue memberColon
          omega
        · exact succ_pos l
    · refine pass_moves (k := 1) ?_ one_pos
      unfold jsonAt
      simp [quote]

theorem headerAt_progress : Progress (headerAt u) := by
  intro done rest _
  unfold headerAt
  dsimp only
  split
  · exact succ_pos _
  · split <;> exact succ_pos _

theorem pairAt_progress : Progress (pairAt u) := by
  intro done rest moves
  unfold pairAt at moves ⊢
  split
  · exact absurd rfl moves
  split
  · exact one_pos
  dsimp only
  split
  · exact one_pos
  · split <;> exact succ_pos _

theorem multipartAt_progress : Progress (multipartAt u) := by
  intro done rest moves
  by_cases starts : hasPrefix rest marker
  · cases quoted : indexByte (rest.drop marker.length) (byte '"') with
    | none =>
      unfold multipartAt at moves
      rw [starts,if_neg (by simp),quoted] at moves
      exact absurd rfl moves
    | some e =>
      have long : 0 < marker.length := by decide
      have := multipartAt_next u done starts quoted
      omega
  · refine pass_moves (k := 1) ?_ one_pos
    unfold multipartAt
    rw [if_pos (by simp [starts])]

theorem schemeMove_progress : Progress (schemeMove u) := by
  intro done rest moves
  unfold schemeMove at moves ⊢
  split
  · exact absurd rfl moves
  split
  · exact one_pos
  split
  · exact one_pos
  dsimp only
  split
  · rename_i start _ found _
    have := schemeAt_long found
    exact show 0 < start + _ by omega
  · exact one_pos

theorem jwtAt_progress : Progress jwtAt := by
  intro done rest _
  unfold jwtAt
  split
  · exact one_pos
  split
  · exact succ_pos 2
  split
  · exact succ_pos 2
  rename_i stop found
  rw [jwtEnd_head] at found
  obtain ⟨head,dots,rfl⟩ := Option.map_eq_some_iff.mp found
  have := jwtHead_long dots
  exact show 0 < head + _ by omega

theorem prefixAt_progress : Progress (prefixAt u) := by
  intro done rest moves
  unfold prefixAt at moves ⊢
  split
  · exact absurd rfl moves
  split
  · exact one_pos
  split
  · exact one_pos
  rename_i start found
  have := plainPrefixAt_long found
  dsimp only
  split <;> exact show 0 < start + _ by omega

theorem mergeInto_covers (cur : Span GoString) (spans : List (Span GoString)) (first : ∀ span ∈ spans, cur.start ≤ span.start)
    (sorted : spans.Pairwise fun a b => a.start ≤ b.start) (x : Nat) : Covers (mergeInto cur spans) x ↔ Covers (cur :: spans) x := by
  induction spans generalizing cur with
  | nil => exact Iff.rfl
  | cons span rest hyp =>
    obtain ⟨later,sorted'⟩ := pairwise_cons.mp sorted
    have start := first span (mem_cons_self ..)
    rw [mergeInto]
    split
    · rw [hyp {cur with stop := max cur.stop span.stop} (forall_mem_cons.mp first).2 sorted',
        covers_cons,covers_cons,covers_cons]
      dsimp only
      constructor
      · rintro (⟨low,high⟩ | covered)
        · rcases lt_or_ge x cur.stop with before | behind
          · exact .inl ⟨low,before⟩
          · exact .inr (.inl ⟨by omega,by omega⟩)
        · exact .inr (.inr covered)
      · rintro (⟨low,high⟩ | ⟨low,high⟩ | covered)
        · exact .inl ⟨low,by omega⟩
        · exact .inl ⟨by omega,by omega⟩
        · exact .inr covered
    · rw [covers_cons,covers_cons,hyp span later sorted']

variable (s : GoString)

def maskedSpans : List (Span GoString) := merge ((spans u s).mergeSort spanBefore)

theorem merge_covers (spans : List (Span GoString)) (x : Nat) : Covers (merge (spans.mergeSort spanBefore)) x ↔ Covers spans x := by
  have order := @pairwise_mergeSort (Span GoString) spanBefore
    (fun a b c one two => by
      simp only [spanBefore] at one two ⊢
      grind)
    (fun a b => by
      simp only [spanBefore]
      grind) spans
  have perm := mergeSort_perm spans spanBefore
  have same : Covers (spans.mergeSort spanBefore) x ↔ Covers spans x := by simp [Covers,perm.mem_iff]
  rw [← same]
  have starts : (spans.mergeSort spanBefore).Pairwise fun a b => a.start ≤ b.start := by
    refine order.imp ?_
    intro a b before
    simp only [spanBefore] at before
    grind
  cases sorted : spans.mergeSort spanBefore with
  | nil => exact Iff.rfl
  | cons span rest =>
    rw [sorted] at starts
    obtain ⟨first,later⟩ := pairwise_cons.mp starts
    exact mergeInto_covers span rest first later x

def Masked (x : Nat) : Prop := Covers (maskedSpans u s) x

theorem masked_iff (x : Nat) : Masked u s x ↔ Covers (spans u s) x := merge_covers _ x

-- A bare value cut to a literal, credentials cut too short, a token before its second dot.
def unreadValue (label left : GoString) : Bool := label == quotedMask && isLiteral left

def unreadCredentials (basic : Bool) (left : GoString) : Bool := !recognised basic left
def unreadToken (_ left : GoString) : Bool := (jwtEnd left).isNone
def LastReturn (n x : Nat) : Prop := x+1 = n ∧ s[x]? = some 13 ∧ Covers (headerLineSpans u s) x
def Lost (n x : Nat) : Prop :=
  CutOff (jsonSpans u s) unreadValue s n x ∨ LastReturn u s n x ∨ CutOff (schemes u s) unreadCredentials s n x ∨ CutOff (jwtSpans s) unreadToken s n x

instance (n x : Nat) : Decidable (Lost u s n x) := inferInstanceAs (Decidable (_ ∨ (_ ∧ _ ∧ _) ∨ _ ∨ _))

theorem schemes_cover (x : Nat) : Covers (schemeSpans u s) x ↔ Covers (schemes u s) x := by
  simp [Covers,schemeSpans]

theorem spans_cover (x : Nat) : Covers (spans u s) x ↔ Covers (jsonSpans u s) x ∨ Covers (headerLineSpans u s) x ∨
    Covers (pairSpans u s) x ∨ Covers (multipartSpans u s) x ∨ Covers (schemes u s) x ∨ Covers (jwtSpans s) x ∨ Covers (prefixSpans u s) x := by
  simp only [spans,covers_append,schemes_cover,or_assoc]

end

section Cut
variable {u : Tables} {s : GoString} {n : Nat} (inside : n ≤ s.length)

include inside

theorem jsonSpans_cut : Keeps (jsonSpans u) s n (CutOff (jsonSpans u s) unreadValue s n) := by
  refine scan_cut (jsonAt_progress u) inside ?_
  intro fuel done rest whole positive reach filled mine
  refine jsonAt_cut u _ positive reach ?_
  intro i j k hit crosses literal x low below
  exact cutOff_hit whole mine hit filled crosses (by simpa [unreadValue] using literal) low below

theorem headerLineSpans_cut : Keeps (headerLineSpans u) s n (LastReturn u s n) := by
  refine scan_cut (headerAt_progress u) inside ?_
  intro fuel done rest whole _ _ filled mine
  refine headerAt_cut u _ ?_
  intro l i j k hit x low high last carriage
  refine ⟨by omega,?_,_,mine _ (scan_hit hit filled),Nat.add_le_add_left low _,Nat.add_lt_add_left high _⟩
  rw [← whole,getElem?_append_right (Nat.le_add_right ..),Nat.add_sub_cancel_left,carriage]

theorem pairSpans_cut : Keeps (pairSpans u) s n fun _ => False := by
  refine scan_cut (pairAt_progress u) inside ?_
  intro fuel done rest whole positive reach _ _
  exact pairAt_cut u _ positive reach

theorem multipartSpans_cut : Keeps (multipartSpans u) s n fun _ => False := by
  refine scan_cut (multipartAt_progress u) inside ?_
  intro fuel done rest whole _ reach _ _
  exact multipartAt_cut u _ reach

theorem schemes_cut : Keeps (schemes u) s n (CutOff (schemes u s) unreadCredentials s n) := by
  refine scan_cut (schemeMove_progress u) inside ?_
  intro fuel done rest whole positive reach filled mine
  refine schemeMove_cut u _ positive ?_
  intro basic i j k hit crosses unknown x low below
  exact cutOff_hit whole mine hit filled crosses (by simpa [unreadCredentials] using unknown) low below

theorem jwtSpans_cut : Keeps jwtSpans s n (CutOff (jwtSpans s) unreadToken s n) := by
  refine scan_cut jwtAt_progress inside ?_
  intro fuel done rest whole _ _ filled mine
  refine jwtAt_cut _ ?_
  intro l i j k hit crosses short x low below
  exact cutOff_hit whole mine hit filled crosses (by simpa [unreadToken] using short) low below

theorem prefixSpans_cut : Keeps (prefixSpans u) s n fun _ => False := by
  refine scan_cut (prefixAt_progress u) inside ?_
  intro fuel done rest whole positive _ _ _
  exact prefixAt_cut u _ positive

theorem spans_cut (below : x < n) (masked : Masked u s x) : Masked u (s.take n) x ∨ Lost u s n x := by
  rw [masked_iff,spans_cover] at masked ⊢
  rcases masked with h | h | h | h | h | h | h
  · exact (jsonSpans_cut inside x below h).imp .inl .inl
  · exact (headerLineSpans_cut inside x below h).imp (.inr ∘ .inl) (.inr ∘ .inl)
  · exact .inl (.inr (.inr (.inl ((pairSpans_cut inside x below h).resolve_right id))))
  · exact .inl (.inr (.inr (.inr (.inl ((multipartSpans_cut inside x below h).resolve_right id)))))
  · exact (schemes_cut inside x below h).imp (.inr ∘ .inr ∘ .inr ∘ .inr ∘ .inl) (.inr ∘ .inr ∘ .inl)
  · exact (jwtSpans_cut inside x below h).imp (.inr ∘ .inr ∘ .inr ∘ .inr ∘ .inr ∘ .inl) (.inr ∘ .inr ∘ .inr)
  · exact .inl (.inr (.inr (.inr (.inr (.inr (.inr ((prefixSpans_cut inside x below h).resolve_right id)))))))

end Cut

theorem trimPartialRune_take (s : GoString) : ∃ m ≤ s.length, trimPartialRune s = s.take m := by
  unfold trimPartialRune
  split
  · exact ⟨s.length,le_rfl,(take_length ..).symm⟩
  · split
    · exact ⟨s.length,le_rfl,(take_length ..).symm⟩
    · exact ⟨_,sub_le ..,rfl⟩

theorem body_cut (u : Tables) (body : GoString) : ∃ m ≤ MaxBodyBytes,
    Body u body = lit "[" ++ decimal body.length ++ lit "-byte non-text body not kept]" ∨ Body u body = Text u (body.take m) ++ truncatedNote ∨
      Body u body = Text u (body.take m) := by
  obtain ⟨m,short,kept⟩ := trimPartialRune_take (body.take MaxBodyBytes)
  rw [length_take] at short
  rw [take_take,min_eq_left (by omega)] at kept
  refine ⟨m,by omega,?_⟩
  unfold Body
  split
  · rename_i empty
    right
    right
    rw [empty,take_nil]
    rfl
  · dsimp only
    rw [kept]
    split
    · exact .inl rfl
    · split
      · exact .inr (.inl rfl)
      · exact .inr (.inr rfl)

-- Not the other way: a byte that one scanner loses may lie in what another one finds.
theorem cut_masks (u : Tables) (s : GoString) : (∀ n, ∀ x < n, ¬Lost u s n x → Masked u s x → Masked u (s.take n) x) ∧
    ∃ m ≤ MaxBodyBytes, Body u s = lit "[" ++ decimal s.length ++ lit "-byte non-text body not kept]" ∨
      Body u s = Text u (s.take m) ++ truncatedNote ∨ Body u s = Text u (s.take m) := by
  refine ⟨?_,body_cut u s⟩
  intro n x below kept masked
  by_cases inside : n ≤ s.length
  · exact (spans_cut inside below masked).resolve_right kept
  · rwa [take_of_length_le (by omega)]

-- Cut after a whole base64 quantum, with a pair before it.
theorem cut_masks_quantum : (∀ x < 28, ¬Lost Tables.ascii (lit "password=1234 Basic dXNlcjpwYXNz") 28 x) ∧
    ∀ x ∈ [9,10,11,12,20,21,22,23,24,25,26,27], Masked Tables.ascii ((lit "password=1234 Basic dXNlcjpwYXNz").take 28) x := by
  have kept : ∀ x < 28, ¬Lost Tables.ascii (lit "password=1234 Basic dXNlcjpwYXNz") 28 x := by decide +kernel
  have masked : ∀ x ∈ [9,10,11,12,20,21,22,23,24,25,26,27],
      x < 28 ∧ Masked Tables.ascii (lit "password=1234 Basic dXNlcjpwYXNz") x := by
    simp only [masked_iff]
    decide +kernel
  refine ⟨kept,?_⟩
  intro x listed
  obtain ⟨below,hidden⟩ := masked x listed
  exact (cut_masks Tables.ascii _).1 28 x below (kept x below) hidden

-- The token is lost to its own scanner, and the value of the pair it stands in is masked.
example : Lost Tables.ascii (lit "token=eyJhbGciOiJIUzI1NiJ9.eyJzdWIiOiIxIn0.c2ln") 36 6 ∧
    Masked Tables.ascii ((lit "token=eyJhbGciOiJIUzI1NiJ9.eyJzdWIiOiIxIn0.c2ln").take 36) 6 := by
  rw [masked_iff]
  decide +kernel

-- A password whose base64 is cut inside a quantum, and a token cut in its payload.
theorem cut_credentials_kept :
    (Masked Tables.ascii (lit "Basic dXNlcjpwYXNz") 6 ∧ ¬ Masked Tables.ascii ((lit "Basic dXNlcjpwYXNz").take 15) 6) ∧
    (Masked Tables.ascii (lit "eyJhbGciOiJIUzI1NiJ9.eyJzdWIiOiIxIn0.c2ln") 0 ∧
      ¬ Masked Tables.ascii ((lit "eyJhbGciOiJIUzI1NiJ9.eyJzdWIiOiIxIn0.c2ln").take 30) 0) := by
  simp only [masked_iff]
  decide +kernel

end Gateon.Security.Redact
