import Gateon.Go.Strings

namespace Gateon.Router
open Go List

def slashThenDotOrSlash : GoString → Bool
  | a :: b :: t => (a == byte '/' && (b == byte '/' || b == byte '.')) || slashThenDotOrSlash (b :: t)
  | _ => false

section
variable (p : GoString)

def needsNormalizing : Bool :=
  if p = [] ∨ p.head? ≠ some (byte '/') then true else slashThenDotOrSlash p

-- path.Clean of a rooted path, by its documented rules.
def cleanElement (out : List GoString) (element : GoString) : List GoString :=
  if element = [] ∨ element = lit "." then out
  else if element = lit ".." then out.dropLast
  else out ++ [element]

def cleanRooted : GoString :=
  byte '/' :: join ((split p (byte '/')).foldl cleanElement []) (lit "/")

def NormalizePath : GoString :=
  if !needsNormalizing p then p
  else if p = [] then lit "/"
  else
    let rooted := if p.head? ≠ some (byte '/') then byte '/' :: p else p
    let cleaned := cleanRooted rooted
    if p.getLast? = some (byte '/') ∧ cleaned ≠ lit "/" then cleaned ++ lit "/" else cleaned

def ambiguousFrom (seg : GoString) : GoString → Bool
  | [] => false
  | c :: t =>
    if c = byte '\\' then true
    else if c = byte ';' ∧ (seg = lit "." ∨ seg = lit "..") then true
    else ambiguousFrom (if c = byte '/' then [] else seg ++ [c]) t

def AmbiguousPath : Bool := ambiguousFrom [] p

end

def segments (p : GoString) : List GoString := (split p (byte '/')).filter (· ≠ [])
def resolved (p : GoString) : List GoString := (split p (byte '/')).foldl cleanElement []
def stripParams (segment : GoString) : GoString := (cut segment (byte ';')).1
def backendReads (p : GoString) : List GoString := ((split p (byte '/')).map stripParams).foldl cleanElement []
def isDots (segment : GoString) : Bool := segment == lit "." || segment == lit ".."

theorem foldl_clean_plain {l : List GoString} (plain : ∀ s ∈ l, isDots s = false) (out : List GoString) :
    l.foldl cleanElement out = out ++ l.filter (· ≠ []) := by
  induction l generalizing out with
  | nil => simp
  | cons s rest ih =>
    have mine := plain s mem_cons_self
    simp only [isDots,Bool.or_eq_false_iff,beq_eq_false_iff_ne] at mine
    rw [foldl_cons,ih (forall_mem_cons.mp plain).2,cleanElement]
    by_cases empty : s = []
    · simp [empty]
    · simp [empty,mine.1,mine.2]

theorem foldl_clean_kept {l : List GoString} (out : List GoString) :
    ∀ s ∈ l.foldl cleanElement out, s ∈ out ∨ (s ∈ l ∧ s ≠ [] ∧ isDots s = false) := by
  induction l generalizing out with
  | nil => exact fun s => .inl
  | cons x rest ih =>
    intro s member
    rcases ih (cleanElement out x) s member with held | ⟨later,fine⟩
    · unfold cleanElement at held
      split at held
      · exact .inl held
      split at held
      · exact .inl ((dropLast_subset out) held)
      next dropped dots =>
      rcases mem_append.mp held with before | last
      · exact .inl before
      have same := mem_singleton.mp last
      rw [not_or] at dropped
      subst same
      exact .inr ⟨mem_cons_self,dropped.1,by simp [isDots,dropped.2,dots]⟩
    · exact .inr ⟨mem_cons_of_mem x later,fine⟩

theorem resolved_kept (member : s ∈ resolved p) : s ∈ split p (byte '/') ∧ s ≠ [] ∧ isDots s = false := by
  rcases foldl_clean_kept [] s member with impossible | kept
  · cases impossible
  · exact kept

theorem slash_found (a b : GoString) (bad : c = byte '/' ∨ c = byte '.') : slashThenDotOrSlash (a ++ byte '/' :: c :: b) := by
  induction a with
  | nil =>
    rcases bad with rfl | rfl <;> simp [slashThenDotOrSlash]
  | cons x a ih =>
    have step : ∀ first rest, slashThenDotOrSlash (first :: rest) → slashThenDotOrSlash (x :: first :: rest) := by
      intro first rest found
      rw [slashThenDotOrSlash,found,Bool.or_true]
    cases a with
    | nil => exact step (byte '/') (c :: b) ih
    | cons y a => exact step y (a ++ byte '/' :: c :: b) ih

theorem clean_plain (clean : needsNormalizing p = false) : ∀ s ∈ split p (byte '/'), isDots s = false := by
  unfold needsNormalizing at clean
  split at clean
  · cases clean
  next rooted =>
  rw [not_or,not_not] at rooted
  intro s member
  by_contra dots
  obtain ⟨u,v,whole,_,before,_⟩ := mem_split.mp member
  obtain ⟨more,shape⟩ : ∃ more, s = byte '.' :: more := by
    simp only [isDots,Bool.not_eq_false,Bool.or_eq_true,beq_iff_eq] at dots
    rcases dots with rfl | rfl
    · exact ⟨[],rfl⟩
    · exact ⟨lit ".",rfl⟩
  rcases before with rfl | ⟨u',rfl⟩
  · rw [whole,shape] at rooted
    have same : byte '.' = byte '/' := Option.some.inj rooted.2
    exact absurd same (by decide)
  · rw [whole,shape] at clean
    have found := slash_found u' (more ++ v) (c := byte '.') (.inr rfl)
    simp only [append_assoc,cons_append,nil_append] at clean
    rw [found] at clean
    cases clean

theorem split_rooted (p : GoString) : split (byte '/' :: p) (byte '/') = [] :: split p (byte '/') := split_append not_mem_nil p

theorem segments_rooted (parts : List GoString) (fine : ∀ s ∈ parts, s ≠ [] ∧ byte '/' ∉ s) :
    segments (byte '/' :: join parts (lit "/")) = parts := by
  rw [segments,split_rooted]
  by_cases empty : parts = []
  · subst empty
    decide
  have back : split (join parts (lit "/")) (byte '/') = parts := split_join parts empty fun s member => (fine s member).2
  have all : parts.filter (· ≠ []) = parts := by
    rw [filter_eq_self]
    intro s member
    simp [(fine s member).1]
  rw [back,filter_cons]
  simpa using all

-- The path a list of segments stands for, with the slash at its end kept.
def rootedPath (parts : List GoString) (slashed : Bool) : GoString :=
  let cleaned := byte '/' :: join parts (lit "/")
  if slashed ∧ cleaned ≠ lit "/" then cleaned ++ lit "/" else cleaned

def endsInSlash (p : GoString) : Bool := p.getLast? == some (byte '/')

theorem endsInSlash_iff : endsInSlash p ↔ ∃ x, p = x ++ [byte '/'] := by
  rw [endsInSlash,beq_iff_eq,getLast?_eq_some_iff]

theorem resolved_rooted (p : GoString) : resolved (byte '/' :: p) = resolved p := by
  rw [resolved,split_rooted]
  rfl

theorem join_split (s : GoString) : join (split s (byte '/')) (lit "/") = s := intercalate_splitOn (byte '/')

-- An empty part is next to two slashes, or to one and an end.
theorem parts_filled (clean : slashThenDotOrSlash (byte '/' :: (x ++ t)) = false) (filled : x ≠ []) (ends : endsInSlash x = false) :
    (split x (byte '/')).filter (· ≠ []) = split x (byte '/') := by
  rw [filter_eq_self]
  intro s member
  apply decide_eq_true
  rintro rfl
  obtain ⟨u,v,whole,_,before,after⟩ := mem_split.mp member
  rw [append_nil] at whole
  subst whole
  rcases before with rfl | ⟨u',rfl⟩ <;> rcases after with rfl | ⟨v',rfl⟩
  · exact filled rfl
  · cases (slash_found [] (v' ++ t) (.inl rfl)).symm.trans clean
  · rw [append_nil,endsInSlash_iff.mpr ⟨u',rfl⟩] at ends
    cases ends
  · have found := slash_found (byte '/' :: u') (v' ++ t) (c := byte '/') (.inl rfl)
    simp only [append_assoc,cons_append,nil_append] at clean found
    cases found.symm.trans clean

theorem clean_rooted (clean : needsNormalizing p = false) : p = rootedPath (resolved p) (endsInSlash p) := by
  have plain : resolved p = segments p := foldl_clean_plain (clean_plain clean) []
  obtain ⟨rest,rfl,single⟩ : ∃ rest, p = byte '/' :: rest ∧ slashThenDotOrSlash p = false := by
    unfold needsNormalizing at clean
    split at clean
    · cases clean
    rename_i rooted
    cases p with
    | nil => exact absurd (.inl rfl) rooted
    | cons b rest =>
      have first : b = byte '/' := by simpa using rooted
      exact ⟨rest,by rw [first],clean⟩
  have parts : resolved (byte '/' :: rest) = (split rest (byte '/')).filter (· ≠ []) := by
    rw [plain,segments,split_rooted]
    rfl
  by_cases alone : rest = []
  · subst alone
    decide
  cases ends : endsInSlash rest with
  | true =>
    obtain ⟨x,rfl⟩ := endsInSlash_iff.mp ends
    have filled : x ≠ [] := by
      rintro rfl
      cases (slash_found [] [] (.inl rfl)).symm.trans single
    have within : endsInSlash x = false := by
      apply Bool.eq_false_iff.mpr
      intro twice
      obtain ⟨y,rfl⟩ := endsInSlash_iff.mp twice
      have found := slash_found (byte '/' :: y) [] (c := byte '/') (.inl rfl)
      rw [append_assoc] at single
      cases found.symm.trans single
    have both : split (x ++ [byte '/']) (byte '/') = split x (byte '/') ++ [[]] := split_joined x [] (byte '/')
    have all : resolved (byte '/' :: (x ++ [byte '/'])) = split x (byte '/') := by
      rw [parts,both,filter_append,parts_filled single filled within]
      exact append_nil _
    rw [all,rootedPath,join_split,if_pos]
    · rfl
    · exact ⟨endsInSlash_iff.mpr ⟨byte '/' :: x,rfl⟩,fun same => filled (List.cons.inj same).2⟩
  | false =>
    have all : resolved (byte '/' :: rest) = split rest (byte '/') := by
      rw [parts,parts_filled (t := []) (by rwa [append_nil]) alone ends]
    have last : endsInSlash (byte '/' :: rest) = false := by rwa [endsInSlash,getLast?_cons_of_ne_nil alone]
    rw [all,rootedPath,join_split,if_neg]
    rw [last]
    nofun

theorem normalize_rooted (p : GoString) : NormalizePath p = rootedPath (resolved p) (endsInSlash p) := by
  unfold NormalizePath
  cases clean : needsNormalizing p with
  | false => exact clean_rooted clean
  | true =>
    simp only [Bool.not_true,Bool.false_eq_true,↓reduceIte]
    split
    · rename_i empty
      subst empty
      decide
    · have rooted : cleanRooted (if p.head? ≠ some (byte '/') then byte '/' :: p else p) = byte '/' :: join (resolved p) (lit "/") := by
        split
        · exact congrArg (fun l => byte '/' :: join l (lit "/")) (resolved_rooted p)
        · rfl
      simp only [rooted,rootedPath,endsInSlash,beq_iff_eq]

theorem resolved_fine (p : GoString) : ∀ s ∈ resolved p, s ≠ [] ∧ byte '/' ∉ s := by
  intro s member
  obtain ⟨held,filled,_⟩ := resolved_kept member
  obtain ⟨_,_,_,free,_⟩ := mem_split.mp held
  exact ⟨filled,free⟩

theorem segments_NormalizePath (p : GoString) : segments (NormalizePath p) = resolved p := by
  have same := segments_rooted (resolved p) (resolved_fine p)
  rw [normalize_rooted,rootedPath]
  split
  · have last := split_joined (byte '/' :: join (resolved p) (lit "/")) [] (byte '/')
    unfold segments at same ⊢
    rw [show lit "/" = [byte '/'] from rfl] at *
    rw [last,filter_append,same]
    exact append_nil _
  · exact same

theorem split_normal (member : s ∈ split (NormalizePath p) (byte '/')) : s = [] ∨ s ∈ resolved p := by
  by_cases empty : s = []
  · exact .inl empty
  · rw [← segments_NormalizePath]
    exact .inr (List.mem_filter.mpr ⟨member,by simp [empty]⟩)

theorem resolved_normal (p : GoString) : resolved (NormalizePath p) = resolved p := by
  rw [← segments_NormalizePath p]
  refine foldl_clean_plain ?_ []
  intro s member
  rcases split_normal member with rfl | kept
  · decide
  · exact (resolved_kept kept).2.2

theorem normalize_again (p : GoString) : NormalizePath (NormalizePath p) = NormalizePath p := by
  have ends : resolved p ≠ [] → endsInSlash (rootedPath (resolved p) (endsInSlash p)) = endsInSlash p := by
    intro some
    have same := segments_rooted (resolved p) (resolved_fine p)
    have cleaned : byte '/' :: join (resolved p) (lit "/") ≠ lit "/" := by
      intro root
      rw [root] at same
      exact some same.symm
    unfold rootedPath
    cases slashed : endsInSlash p with
    | true =>
      rw [if_pos ⟨rfl,cleaned⟩]
      exact endsInSlash_iff.mpr ⟨_,rfl⟩
    | false =>
      simp only [Bool.false_eq_true,false_and,↓reduceIte]
      apply Bool.eq_false_iff.mpr
      intro last
      obtain ⟨x,shape⟩ := endsInSlash_iff.mp last
      have both := split_joined x [] (byte '/')
      have parts : split (join (resolved p) (lit "/")) (byte '/') = resolved p :=
        split_join _ some fun s member => (resolved_fine p s member).2
      rw [← shape,split_rooted,parts] at both
      have final := congrArg getLast? both
      rw [getLast?_cons_of_ne_nil some,split_none not_mem_nil,getLast?_concat] at final
      exact (resolved_fine p [] (mem_of_getLast? final)).1 rfl
  rw [normalize_rooted (NormalizePath p),resolved_normal,normalize_rooted p]
  by_cases none : resolved p = []
  · rw [none]
    cases endsInSlash p <;> decide
  · rw [ends none]

theorem ambiguousFrom_later (a b seg : GoString) (later : ambiguousFrom [] b) : ambiguousFrom seg (a ++ byte '/' :: b) := by
  induction a generalizing seg with
  | nil =>
    have apart : byte '/' ≠ byte '\\' ∧ byte '/' ≠ byte ';' := by decide
    simp [ambiguousFrom,apart,later]
  | cons x a ih =>
    rw [cons_append,ambiguousFrom]
    split
    · rfl
    · split
      · rfl
      · exact ih _

theorem dots_params_refused (member : s ∈ split p (byte '/')) (shape : s = dots ++ byte ';' :: more) (isDot : isDots dots) :
    AmbiguousPath p := by
  obtain ⟨u,v,whole,_,before,_⟩ := mem_split.mp member
  have here : ∀ rest, ambiguousFrom [] (dots ++ byte ';' :: rest) := by
    intro rest
    have apart : byte '.' ≠ byte '\\' ∧ byte '.' ≠ byte ';' ∧ byte '.' ≠ byte '/' ∧ byte ';' ≠ byte '\\' := by decide
    have one : lit "." = [byte '.'] := rfl
    have two : lit ".." = [byte '.',byte '.'] := rfl
    simp only [isDots,Bool.or_eq_true,beq_iff_eq,one,two] at isDot
    rcases isDot with rfl | rfl <;> simp [ambiguousFrom,apart,one,two]
  rw [AmbiguousPath,whole,shape]
  rcases before with rfl | ⟨u',rfl⟩
  · simpa using here (more ++ v)
  · have later := ambiguousFrom_later u' _ [] (here (more ++ v))
    simpa using later

theorem stripParams_plain (allowed : AmbiguousPath p = false) (member : s ∈ split (NormalizePath p) (byte '/')) : isDots (stripParams s) = false := by
  rcases split_normal member with rfl | kept
  · decide
  obtain ⟨held,_,plain⟩ := resolved_kept kept
  obtain ⟨_,parts⟩ := cut_parts s (byte ';')
  unfold stripParams
  split at parts
  · by_contra dots
    have refused := dots_params_refused held parts (Bool.not_eq_false _ ▸ dots)
    rw [refused] at allowed
    cases allowed
  · rwa [← parts]

theorem filter_map_strip (l : List GoString) :
    (l.map stripParams).filter (· ≠ []) = (l.filter (· ≠ [])).map stripParams ↔ ∀ s ∈ l, s ≠ [] → stripParams s ≠ [] := by
  constructor
  · intro same s member filled gone
    have inRight : [] ∈ (l.filter (· ≠ [])).map stripParams := List.mem_map.mpr ⟨s,List.mem_filter.mpr ⟨member,by simp [filled]⟩,gone⟩
    rw [← same] at inRight
    simpa using (List.mem_filter.mp inRight).2
  intro all
  rw [List.filter_map]
  congr 1
  apply filter_congr
  intro s member
  by_cases empty : s = []
  · subst empty
    decide
  · simp [empty,all s member empty]

theorem stripParams_nil : stripParams s = [] ↔ s = [] ∨ s.head? = some (byte ';') := by
  cases s with
  | nil => simp [stripParams,cut]
  | cons b rest => by_cases same : b = byte ';' <;> simp [stripParams,cut,same]

theorem backendReads_segments (p : GoString) (allowed : AmbiguousPath p = false) :
    backendReads (NormalizePath p) = (segments (NormalizePath p)).map stripParams ↔ ∀ s ∈ resolved p, s.head? ≠ some (byte ';') := by
  have plain : ∀ s ∈ (split (NormalizePath p) (byte '/')).map stripParams, isDots s = false :=
    forall_mem_map.mpr fun segment => stripParams_plain allowed
  rw [backendReads,foldl_clean_plain plain,nil_append,segments,filter_map_strip,← segments_NormalizePath]
  constructor
  · intro all s member first
    obtain ⟨held,filled⟩ := List.mem_filter.mp member
    exact all s held (by simpa using filled) (stripParams_nil.mpr (.inr first))
  · intro all s held filled gone
    rcases stripParams_nil.mp gone with empty | first
    · exact filled empty
    · exact all s (List.mem_filter.mpr ⟨held,by simp [filled]⟩) first

theorem backendReads_segments_plain :
    AmbiguousPath (lit "/a;x=1/../b;y") = false ∧
      (backendReads (NormalizePath (lit "/a;x=1/../b;y")) = (segments (NormalizePath (lit "/a;x=1/../b;y"))).map stripParams ↔
        ∀ s ∈ resolved (lit "/a;x=1/../b;y"), s.head? ≠ some (byte ';')) :=
  ⟨by decide +kernel,backendReads_segments (lit "/a;x=1/../b;y") (by decide +kernel)⟩

-- The router sees the two segments ";x" and "admin"; the backend serves /admin.
theorem bare_params_dropped :
    AmbiguousPath (lit "/;x/admin") = false ∧ NormalizePath (lit "/;x/admin") = lit "/;x/admin" ∧
      backendReads (lit "/;x/admin") = [lit "admin"] ∧ (segments (lit "/;x/admin")).map stripParams = [[],lit "admin"] := by
  decide +kernel

theorem backslash_refused (member : byte '\\' ∈ t) (seg : GoString) : ambiguousFrom seg t := by
  induction t generalizing seg with
  | nil => cases member
  | cons c t ih =>
    unfold ambiguousFrom
    split
    · rfl
    rename_i other
    split
    · rfl
    · exact ih ((mem_cons.mp member).resolve_left (Ne.symm other)) _

-- `pre` ends where the segment starts that has been read up to `t`.
theorem ambiguousFrom_parts (pre : GoString) (found : ambiguousFrom seg t) (starts : pre = [] ∨ ∃ u, pre = u ++ [byte '/']) (free : byte '/' ∉ seg) :
    byte '\\' ∈ t ∨ ∃ s ∈ split (pre ++ seg ++ t) (byte '/'), ∃ dots more, s = dots ++ byte ';' :: more ∧ isDots dots := by
  induction t generalizing pre seg with
  | nil => cases found
  | cons c t ih =>
    unfold ambiguousFrom at found
    split at found
    · rename_i same
      exact .inl (same ▸ mem_cons_self)
    split at found
    · rename_i params
      obtain ⟨rfl,dots⟩ := params
      obtain ⟨clear,parts⟩ := cut_parts t (byte '/')
      obtain ⟨rest,whole,ends⟩ : ∃ rest, t = (cut t (byte '/')).1 ++ rest ∧ (rest = [] ∨ ∃ v, rest = byte '/' :: v) := by
        split at parts
        · exact ⟨_,parts,.inr ⟨_,rfl⟩⟩
        · exact ⟨[],by rw [append_nil]; exact parts,.inl rfl⟩
      refine .inr ⟨_,mem_split.mpr ⟨pre,rest,?_,?_,starts,ends⟩,seg,(cut t (byte '/')).1,rfl,by simpa [isDots] using dots⟩
      · conv_lhs => rw [whole]
        simp
      · simp [free,clear]
        decide
    · rename_i other
      have step : pre ++ seg ++ c :: t = pre ++ (seg ++ [c]) ++ t := by simp
      split at found
      · rename_i slash
        subst slash
        have next := ih (pre ++ seg ++ [byte '/']) found (.inr ⟨_,rfl⟩) not_mem_nil
        simp only [append_nil] at next
        rw [step,← append_assoc]
        exact next.imp_left (mem_cons_of_mem _)
      · rename_i plain
        have next := ih pre found starts (by simp [free,Ne.symm plain])
        rw [step]
        exact next.imp_left (mem_cons_of_mem _)

theorem ambiguous_normal (allowed : AmbiguousPath p = false) : AmbiguousPath (NormalizePath p) = false := by
  apply Bool.eq_false_iff.mpr
  intro found
  have whole {s : GoString} (member : s ∈ split (NormalizePath p) (byte '/')) (filled : s ≠ []) : s ∈ split p (byte '/') :=
    (resolved_kept ((split_normal member).resolve_left filled)).1
  rcases ambiguousFrom_parts [] found (.inl rfl) not_mem_nil with slash | ⟨s,member,dots,more,shape,isDot⟩
  · rw [← join_split (NormalizePath p)] at slash
    obtain ⟨part,member,inside⟩ := (mem_join slash).resolve_left (by decide)
    obtain ⟨u,v,split,_⟩ := mem_split.mp (whole member (ne_nil_of_mem inside))
    have refused := backslash_refused (t := p) (by rw [split]; simp [inside]) []
    cases refused.symm.trans allowed
  · have refused := dots_params_refused (whole member (by rw [shape]; simp)) shape isDot
    cases refused.symm.trans allowed

theorem normalize_exact (p : GoString) : NormalizePath p = rootedPath (resolved (byte '/' :: p)) (endsInSlash p) ∧
    (∀ s ∈ resolved (byte '/' :: p), s ≠ [] ∧ s ≠ lit "." ∧ s ≠ lit ".." ∧ byte '/' ∉ s) ∧
    (needsNormalizing p = false → rootedPath (resolved (byte '/' :: p)) (endsInSlash p) = p) ∧
    NormalizePath (NormalizePath p) = NormalizePath p ∧
    (AmbiguousPath p = false → AmbiguousPath (NormalizePath p) = false) := by
  rw [resolved_rooted]
  refine ⟨normalize_rooted p,?_,fun clean => (clean_rooted clean).symm,normalize_again p,ambiguous_normal⟩
  intro s member
  obtain ⟨filled,free⟩ := resolved_fine p s member
  have plain := (resolved_kept member).2.2
  simp only [isDots,Bool.or_eq_false_iff,beq_eq_false_iff_ne] at plain
  exact ⟨filled,plain.1,plain.2,free⟩

end Gateon.Router
