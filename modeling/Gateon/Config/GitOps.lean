import Gateon.Router.Path
import Mathlib.Data.List.Infix
import Mathlib.Logic.Relation

namespace Gateon.Config.GitOps
open Go Router List Relation

inductive Entry where
  | file (data : GoString)
  | directory
  | link (target : GoString)
deriving DecidableEq

-- What is found at a place, given by the names from the root on; below the clone directory it is the repository's tree.
abbrev Files := List GoString → Option Entry

-- The temporary directory is a rooted path, so Clean and Join only resolve names.
def containedPath (root rel : GoString) : Option GoString :=
  let clean := cleanRooted root
  let joined := cleanRooted (clean ++ byte '/' :: rel)
  if joined ≠ clean ∧ hasPrefix joined (clean ++ lit "/") = false then none else some joined

-- A path being opened: `names` are still to be looked up from `place`.
structure Walk where
  place : List GoString
  names : List GoString
  links : Nat
deriving DecidableEq

def Walk.start (p : GoString) : Walk := ⟨[],split p (byte '/'),40⟩
def Walk.then (w : Walk) (rest : List GoString) : Walk := {w with names := w.names ++ rest}

section
variable (fs : Files)

def look (w : Walk) (name : GoString) : Option Walk :=
  if fs w.place ≠ some .directory then none
  else if name = [] ∨ name = lit "." then some ⟨w.place,[],w.links⟩
  else if name = lit ".." then some ⟨w.place.dropLast,[],w.links⟩
  else match fs (w.place ++ [name]) with
    | none => none
    | some (.link target) =>
      if w.links = 0 then none
      else some ⟨if hasPrefix target (lit "/") then [] else w.place,split target (byte '/'),w.links-1⟩
    | some _ => some ⟨w.place ++ [name],[],w.links⟩

def Walk.step (w : Walk) : Option Walk :=
  match w.names with
  | [] => none
  | name :: rest => (look fs w name).map (·.then rest)

def Walk.run : Nat → Walk → Option Walk
  | 0,_ => none
  | steps+1,w => if w.names = [] then some w else (w.step fs).bind (run steps)

-- With the place of the file, for the record.
def readFile (steps : Nat) (p : GoString) : Option (List GoString × GoString) :=
  ((Walk.start p).run fs steps).bind fun w => match fs w.place with
    | some (.file data) => some (w.place,data)
    | _ => none

-- The part of Sync that picks the text it parses.
def syncReads (steps : Nat) (tempDir path : GoString) : Option (List GoString × GoString) :=
  (containedPath tempDir path).bind (readFile fs steps)

variable (dir : List GoString)

def plainName (name : GoString) : Bool := name != [] && !isDots name

-- The next name goes down into the directory itself.
def Enters (w : Walk) : Prop := ∃ name ∈ w.names.head?, plainName name ∧ w.place ++ [name] = dir

-- The next name climbs out of the directory, or is a link in it to a rooted path.
def Leaves (w : Walk) : Prop := ∃ name ∈ w.names.head?,
  name = lit ".." ∧ w.place = dir ∨ plainName name ∧ ∃ target, fs (w.place ++ [name]) = some (.link target) ∧ hasPrefix target (lit "/")

def Moves (w v : Walk) : Prop := w.step fs = some v

-- After a last step into the directory none leaves it.
def Settles (p : GoString) (place : List GoString) : Prop :=
  ∃ w v x, ReflTransGen (Moves fs) (.start p) w ∧ Enters dir w ∧ Moves fs w v ∧
    ReflTransGen (fun w v => Moves fs w v ∧ ¬Leaves fs dir w) v x ∧ x.place = place

end

theorem split_clean (member : name ∈ split (cleanRooted p) (byte '/')) : name ≠ lit ".." := by
  rintro rfl
  have kept : lit ".." ∈ Router.segments (cleanRooted p) := List.mem_filter.mpr ⟨member,by decide⟩
  rw [cleanRooted,← resolved,segments_rooted (resolved p) (resolved_fine p)] at kept
  exact absurd (resolved_kept kept).2.2 (by decide)

theorem contained_split (passed : containedPath root rel = some p) :
    ∃ rest, split p (byte '/') = split (cleanRooted root) (byte '/') ++ rest ∧ ∀ name ∈ rest, name ≠ lit ".." := by
  obtain ⟨inside,⟨⟩⟩ := Option.ite_none_left_eq_some.mp passed
  rw [not_and_or,not_not,Bool.not_eq_false,hasPrefix, isPrefixOf_iff_prefix] at inside
  rcases inside with same | ⟨below,shape⟩
  · exact ⟨[],by rw [same,append_nil],nofun⟩
  rw [append_assoc,show lit "/" ++ below = byte '/' :: below from rfl] at shape
  refine ⟨split below (byte '/'),by rw [← shape,split_joined],fun name member => ?_⟩
  refine split_clean (p := cleanRooted root ++ byte '/' :: rel) ?_
  rw [← shape,split_joined]
  exact mem_append_right _ member

variable {fs : Files} {dir : List GoString} {w v : Walk}

-- What a name can do: nothing, climb, be replaced by a link's target, or be gone down into.
theorem moves_cases (moved : Moves fs w v) : ∃ name rest, w.names = name :: rest ∧
    (plainName name = false ∧ name ≠ lit ".." ∧ v.place = w.place ∧ v.names = rest ∨
      name = lit ".." ∧ v.place = w.place.dropLast ∧ v.names = rest ∨
      plainName name ∧ (∃ target, fs (w.place ++ [name]) = some (.link target) ∧
        v.place = (if hasPrefix target (lit "/") then [] else w.place)) ∨
      plainName name ∧ (∀ target, fs (w.place ++ [name]) ≠ some (.link target)) ∧ v.place = w.place ++ [name] ∧ v.names = rest) := by
  unfold Moves Walk.step at moved
  split at moved
  · cases moved
  rename_i name rest names
  refine ⟨name,rest,names,?_⟩
  obtain ⟨found,looked,rfl⟩ := Option.map_eq_some_iff.mp moved
  obtain ⟨_,looked⟩ := Option.ite_none_left_eq_some.mp looked
  split at looked
  · rename_i same
    cases looked
    exact .inl ⟨by rcases same with rfl | rfl <;> decide,by rcases same with rfl | rfl <;> decide,rfl,rfl⟩
  rename_i filled
  split at looked
  · cases looked; exact .inr (.inl ⟨‹_›,rfl,rfl⟩)
  rename_i up
  have plain : plainName name := by
    rw [not_or] at filled
    simp [plainName,isDots,filled,up]
  split at looked
  · cases looked
  · obtain ⟨_,⟨⟩⟩ := Option.ite_none_left_eq_some.mp looked
    exact .inr (.inr (.inl ⟨plain,_,‹_›,rfl⟩))
  · rename_i other found
    cases looked
    exact .inr (.inr (.inr ⟨plain,fun target same => other target (Option.some.inj (found.symm.trans same)),rfl,rfl⟩))

theorem prefix_dropLast (deep : dir ≠ []) : dir <+: place.dropLast ↔ dir <+: place ∧ place ≠ dir := by
  constructor
  · intro within
    refine ⟨within.trans ( dropLast_prefix _),?_⟩
    rintro rfl
    have filled := length_pos_iff.mpr deep
    exact absurd within.length_le (by simp; omega)
  · rintro ⟨⟨more,rfl⟩,apart⟩
    rw [dropLast_append_of_ne_nil fun none => apart (by rw [none,append_nil])]
    exact prefix_append ..

theorem climb_unplain (plain : plainName name) : name ≠ lit ".." := by
  rintro rfl
  cases plain

-- The directory is entered and left by the steps that say so, and by no others.
theorem moves_inside (home : fs dir = some .directory) (deep : dir ≠ []) (moved : Moves fs w v) :
    dir <+: v.place ↔ Enters dir w ∨ dir <+: w.place ∧ ¬Leaves fs dir w := by
  obtain ⟨name,rest,names,⟨dots,other,place,_⟩ | ⟨rfl,place,_⟩ | ⟨plain,target,found,place⟩ | ⟨plain,found,place,_⟩⟩ := moves_cases moved
  · simp [Enters,Leaves,names,place,dots,other]
  · simp [Enters,Leaves,names,place,prefix_dropLast deep,show plainName (lit "..") = false by decide]
  · have elsewhere : w.place ++ [name] ≠ dir := by
      rintro rfl
      cases home.symm.trans found
    by_cases rooted : hasPrefix target (lit "/") <;>
      simp [Enters,Leaves,names,place,plain,found,elsewhere,climb_unplain plain,rooted,deep]
  · rw [place,prefix_concat_iff,eq_comm]
    simp [Enters,Leaves,names,plain,climb_unplain plain,found]

-- By induction on the run to its end, which the last step into the directory leads to.
theorem settles_inside (home : fs dir = some .directory) (deep : dir ≠ []) (walked : ReflTransGen (Moves fs) (.start p) x) :
    dir <+: x.place ↔ Settles fs dir p x.place := by
  constructor
  · intro within
    suffices settled : ∃ w v, ReflTransGen (Moves fs) (.start p) w ∧ Enters dir w ∧ Moves fs w v ∧
        ReflTransGen (fun w v => Moves fs w v ∧ ¬Leaves fs dir w) v x by
      obtain ⟨w,v,begun,into,moved,stays⟩ := settled
      exact ⟨w,v,x,begun,into,moved,stays,rfl⟩
    induction walked with
    | refl => exact absurd (prefix_nil.mp within) deep
    | tail walked moved ih =>
      rcases (moves_inside home deep moved).mp within with into | ⟨inside,stays⟩
      · exact ⟨_,_,walked,into,moved,.refl⟩
      · obtain ⟨w,v,begun,into,first,later⟩ := ih inside
        exact ⟨w,v,begun,into,first,later.tail ⟨moved,stays⟩⟩
  · rintro ⟨w,v,y,_,into,moved,stays,same⟩
    rw [← same]
    clear same
    induction stays with
    | refl => exact (moves_inside home deep moved).mpr (.inl into)
    | tail _ moved ih => exact (moves_inside home deep moved.1).mpr (.inr ⟨ih,moved.2⟩)

theorem run_moves (ran : w.run fs steps = some x) : ReflTransGen (Moves fs) w x ∧ x.names = [] := by
  induction steps generalizing w with
  | zero => cases ran
  | succ steps ih =>
    unfold Walk.run at ran
    split at ran
    · cases ran; exact ⟨.refl,‹_›⟩
    · obtain ⟨v,moved,ran⟩ := Option.bind_eq_some_iff.mp ran
      exact ⟨.head moved (ih ran).1,(ih ran).2⟩

theorem moves_then (rest : List GoString) (moved : Moves fs w v) : Moves fs (w.then rest) (v.then rest) := by
  unfold Moves Walk.step at moved
  split at moved
  · cases moved
  rename_i name more names
  obtain ⟨found,looked,rfl⟩ := Option.map_eq_some_iff.mp moved
  have same : look fs (w.then rest) name = some found := looked
  have shape : (w.then rest).names = name :: (more ++ rest) := by rw [Walk.then,names,cons_append]
  rw [Moves,Walk.step,shape]
  dsimp only
  rw [same,Option.map_some]
  simp only [Walk.then,append_assoc]

-- Without links and climbs a walk only goes down.
theorem walk_tree (tree : ∀ p, dir <+: p → ∀ target, fs p ≠ some (.link target)) (within : dir <+: w.place)
    (down : ∀ name ∈ w.names, name ≠ lit "..") (walked : ReflTransGen (Moves fs) w x) : dir <+: x.place := by
  suffices both : dir <+: x.place ∧ ∀ name ∈ x.names, name ≠ lit ".." from both.1
  induction walked with
  | refl => exact ⟨within,down⟩
  | tail _ moved ih =>
    obtain ⟨inside,down⟩ := ih
    obtain ⟨name,rest,names,moved⟩ := moves_cases moved
    rw [names] at down
    obtain ⟨here,later⟩ := forall_mem_cons.mp down
    rcases moved with ⟨_,_,place,left⟩ | ⟨up,_⟩ | ⟨_,target,found,_⟩ | ⟨_,_,place,left⟩
    · exact ⟨place ▸ inside,left ▸ later⟩
    · exact absurd up here
    · exact absurd found (tree _ (inside.trans (prefix_append ..)) target)
    · exact ⟨place ▸ inside.trans (prefix_append ..),left ▸ later⟩

theorem moves_unique : Relator.RightUnique (Moves fs) := fun _ _ _ one two => Option.some.inj (one.symm.trans two)

-- The directory's own names are walked first, through links as they come.
theorem walk_arrives (arrives : ReflTransGen (Moves fs) (.start (cleanRooted root)) mid)
    (parts : split p (byte '/') = split (cleanRooted root) (byte '/') ++ rest) (walked : ReflTransGen (Moves fs) (.start p) x)
    (done : x.names = []) : ReflTransGen (Moves fs) (mid.then rest) x := by
  have begun : ReflTransGen (Moves fs) (.start p) (mid.then rest) := by
    have start : Walk.start p = (Walk.start (cleanRooted root)).then rest := by simp only [Walk.start,Walk.then,parts]
    exact start ▸ arrives.lift (·.then rest) fun _ _ => moves_then rest
  rcases ReflTransGen.total_of_right_unique moves_unique begun walked with onward | back
  · exact onward
  rcases back.cases_head with rfl | ⟨v,moved,_⟩
  · exact .refl
  · rw [Moves,Walk.step,done] at moved
    cases moved

theorem sync_reads_clone (fs : Files) (tempDir path : GoString) (n steps : Nat)
    (opened : (Walk.start (cleanRooted tempDir)).run fs n = some ⟨clone,[],links⟩)
    (home : fs clone = some .directory) (deep : clone ≠ []) (read : syncReads fs steps tempDir path = some (place,data)) :
    fs place = some (.file data) ∧ (∀ p ∈ containedPath tempDir path, clone <+: place ↔ Settles fs clone p place) ∧
    ((∀ p, clone <+: p → ∀ target, fs p ≠ some (.link target)) → clone <+: place) := by
  obtain ⟨p,passed,read⟩ := Option.bind_eq_some_iff.mp read
  obtain ⟨x,ran,read⟩ := Option.bind_eq_some_iff.mp read
  obtain ⟨walked,done⟩ := run_moves ran
  obtain ⟨rest,parts,down⟩ := contained_split passed
  split at read
  · rename_i file
    cases read
    refine ⟨file,?_,?_⟩
    · intro q same
      cases passed.symm.trans same
      exact settles_inside home deep walked
    · intro tree
      exact walk_tree (w := Walk.then ⟨clone,[],links⟩ rest) tree (prefix_refl _) down (walk_arrives (run_moves opened).1 parts walked done)
  · cases read

-- The clone is made below /tmp, which may itself be a link, and has a link of the repository in conf.
def sampleFiles (tmp : Entry) (target : GoString) : Files := fun p => lookup p
  [([],.directory),([lit "tmp"],tmp),([lit "private"],.directory),([lit "private",lit "tmp"],.directory),([lit "etc"],.directory),
    ([lit "etc",lit "shadow"],.file (lit "root:x")),([lit "tmp",lit "c"],.directory),([lit "tmp",lit "c",lit "conf"],.directory),
    ([lit "tmp",lit "c",lit "conf",lit "g"],.link target),([lit "private",lit "tmp",lit "c"],.directory),
    ([lit "private",lit "tmp",lit "c",lit "base"],.file (lit "ok")),([lit "private",lit "tmp",lit "c",lit "conf"],.directory),
    ([lit "private",lit "tmp",lit "c",lit "conf",lit "g"],.link target)]

-- Over a linked /tmp; the link of the repository climbs out of the clone directory and comes back.
def linkedFiles : Files := sampleFiles (.link (lit "/private/tmp")) (lit "../../c/base")

def linkedClone : List GoString := [lit "private",lit "tmp",lit "c"]

theorem sync_reads_clone_link : linkedFiles (linkedClone ++ [lit "base"]) = some (.file (lit "ok")) ∧
    Settles linkedFiles linkedClone (lit "/tmp/c/conf/g") (linkedClone ++ [lit "base"]) := by
  have reads := sync_reads_clone linkedFiles (lit "/tmp/c") (lit "./conf//g") 9 16
    (by decide +kernel : _ = some (⟨linkedClone,[],39⟩ : Walk)) (by decide +kernel) (by decide)
    (by decide +kernel : _ = some (linkedClone ++ [lit "base"],lit "ok"))
  exact ⟨reads.1,(reads.2.1 (lit "/tmp/c/conf/g") (by decide +kernel)).mp (by decide)⟩

theorem sync_reads_host : containedPath (lit "/tmp/c") (lit "../../etc/shadow") = none ∧
    syncReads (sampleFiles .directory (lit "../../../etc/shadow")) 12 (lit "/tmp/c") (lit "conf/g") =
      some ([lit "etc",lit "shadow"],lit "root:x") ∧ ¬ [lit "tmp",lit "c"] <+: [lit "etc",lit "shadow"] := by
  decide +kernel

end Gateon.Config.GitOps
