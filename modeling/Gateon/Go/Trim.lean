import Gateon.Go.Unicode
import Mathlib.Data.List.TakeWhile

namespace Gateon.Go
open List hiding tail

-- unicode.IsSpace: the White_Space property, which has been closed since Unicode 6.3.
def whiteSpace : List Nat :=
  [9,10,11,12,13,32,0x85,0xA0,0x1680,0x2000,0x2001,0x2002,0x2003,0x2004,0x2005,0x2006,0x2007,0x2008,0x2009,0x200A,0x2028,0x2029,
    0x202F,0x205F,0x3000]

def spaces : List GoString := whiteSpace.map encodeRune

def strip (pieces : List GoString) : Nat → GoString → GoString
  | 0,s => s
  | fuel+1,s =>
    match pieces.findSome? (cutPrefix s) with
    | none => s
    | some rest => strip pieces fuel rest

-- The right side is the left side read backwards.
def trimSpace (s : GoString) : GoString :=
  let left := strip spaces s.length s
  (strip (spaces.map List.reverse) left.length left.reverse).reverse

theorem cutPrefix_append : cutPrefix s p = some rest ↔ s = p ++ rest := by
  unfold cutPrefix hasPrefix
  constructor
  · intro found
    split at found
    · rename_i begins
      obtain ⟨tail,whole⟩ := isPrefixOf_iff_prefix.mp begins
      cases found
      simp [← whole]
    · cases found
  · intro whole; simp [whole]

theorem unfound {pieces : List GoString} : pieces.findSome? (cutPrefix s) = none ↔ ∀ p ∈ pieces, ¬ p <+: s := by
  simp [cutPrefix,hasPrefix]

section
variable {pieces : List GoString}
variable {s : GoString}

theorem strip_none (nothing : pieces.findSome? (cutPrefix s) = none) (fuel : Nat) : strip pieces fuel s = s := by
  cases fuel with
  | zero => rfl
  | succ fuel => simp [strip,nothing]

theorem strip_some (found : pieces.findSome? (cutPrefix s) = some rest) (fuel : Nat) :
    strip pieces (fuel+1) s = strip pieces fuel rest := by
  simp only [strip,found]

theorem strip_pieces (pieces : List GoString) (fuel : Nat) (s : GoString) :
    ∃ ps : List GoString, (∀ p ∈ ps, p ∈ pieces) ∧ s = ps.flatten ++ strip pieces fuel s := by
  induction fuel generalizing s with
  | zero => exact ⟨[],by simp,rfl⟩
  | succ fuel ih =>
    cases found : pieces.findSome? (cutPrefix s) with
    | none => rw [strip_none found]; exact ⟨[],by simp,rfl⟩
    | some rest =>
      obtain ⟨piece,mem,cut⟩ := exists_of_findSome?_eq_some found
      obtain ⟨ps,known,whole⟩ := ih rest
      rw [strip_some found]
      refine ⟨piece :: ps,forall_mem_cons.mpr ⟨mem,known⟩,?_⟩
      rw [flatten_cons,append_assoc,← whole]
      exact cutPrefix_append.mp cut

theorem found_shorter (filled : ∀ p ∈ pieces, p ≠ []) (found : pieces.findSome? (cutPrefix s) = some rest) : rest.length < s.length := by
  obtain ⟨piece,mem,cut⟩ := exists_of_findSome?_eq_some found
  have some := length_pos_iff.mpr (filled piece mem)
  rw [cutPrefix_append.mp cut,length_append]
  omega

theorem strip_done (filled : ∀ p ∈ pieces, p ≠ []) (enough : s.length ≤ fuel) :
    pieces.findSome? (cutPrefix (strip pieces fuel s)) = none := by
  induction fuel generalizing s with
  | zero =>
    have empty : s = [] := length_eq_zero_iff.mp (Nat.le_zero.mp enough)
    rw [unfound,strip,empty]
    exact fun p mem starts => filled p mem (prefix_nil.mp starts)
  | succ fuel ih =>
    cases found : pieces.findSome? (cutPrefix s) with
    | none => rw [strip_none found,found]
    | some rest =>
      have shorter := found_shorter filled found
      rw [strip_some found]
      exact ih (by omega)

-- No piece begins another, so a piece at the front is the one that is dropped.
def PrefixFree (pieces : List GoString) : Prop := ∀ p ∈ pieces, ∀ q ∈ pieces, p <+: q → p = q

theorem found_piece (free : PrefixFree pieces) (mem : piece ∈ pieces) :
    pieces.findSome? (cutPrefix (piece ++ rest)) = some rest := by
  cases found : pieces.findSome? (cutPrefix (piece ++ rest)) with
  | none =>
    have missed := findSome?_eq_none_iff.mp found piece mem
    rw [cutPrefix_append.mpr rfl] at missed
    cases missed
  | some tail =>
    obtain ⟨other,known,cut⟩ := exists_of_findSome?_eq_some found
    have whole := cutPrefix_append.mp cut
    have same : other = piece := by
      rcases prefix_or_prefix_of_prefix ⟨tail,whole.symm⟩ ⟨rest,rfl⟩ with one | two
      · exact free other known piece mem one
      · exact (free piece mem other known two).symm
    rw [same] at whole
    rw [append_cancel_left whole]

section
variable (filled : ∀ p ∈ pieces, p ≠ []) (free : PrefixFree pieces) {ps : List GoString} (row : ∀ p ∈ ps, p ∈ pieces)
include filled free row

theorem strip_unique (nothing : pieces.findSome? (cutPrefix rest) = none) (enough : (ps.flatten ++ rest).length ≤ fuel) :
    strip pieces fuel (ps.flatten ++ rest) = rest := by
  induction ps generalizing fuel with
  | nil => exact strip_none nothing fuel
  | cons p ps ih =>
    have some := length_pos_iff.mpr (filled p (row p mem_cons_self))
    rw [flatten_cons,append_assoc] at enough ⊢
    rw [length_append] at enough
    obtain ⟨less,rfl⟩ : ∃ less, fuel = less + 1 := ⟨fuel - 1,by omega⟩
    rw [strip_some (found_piece free (row p mem_cons_self))]
    exact ih (forall_mem_cons.mp row).2 (by omega)

theorem strip_row (s : GoString) : strip pieces (ps.flatten ++ s).length (ps.flatten ++ s) = strip pieces s.length s := by
  obtain ⟨qs,known,whole⟩ := strip_pieces pieces s.length s
  have both := strip_unique filled free (forall_mem_append.mpr ⟨row,known⟩) (strip_done filled (le_refl s.length)) le_rfl
  rwa [flatten_append,append_assoc,← whole] at both

end

abbrev spacesBack : List GoString := spaces.map List.reverse

theorem spaces_filled : ∀ p ∈ spaces, p ≠ [] := by decide
theorem spaces_free : PrefixFree spaces := by unfold PrefixFree; decide +kernel
theorem spacesBack_filled : ∀ p ∈ spacesBack, p ≠ [] := by decide
theorem spacesBack_free : PrefixFree spacesBack := by unfold PrefixFree; decide +kernel

section
variable (s : GoString)

theorem trimSpace_begins : trimSpace s <+: strip spaces s.length s := by
  let rest := strip spaces s.length s
  obtain ⟨ps,_,whole⟩ := strip_pieces spacesBack rest.length rest.reverse
  exact reverse_suffix.mp ⟨ps.flatten,by rw [trimSpace,reverse_reverse]; exact whole.symm⟩

theorem trimSpace_parts : ∃ front back : List GoString, (∀ p ∈ front, p ∈ spaces) ∧ (∀ p ∈ back, p ∈ spaces) ∧
    s = front.flatten ++ trimSpace s ++ back.flatten := by
  let rest := strip spaces s.length s
  obtain ⟨front,row,left⟩ := strip_pieces spaces s.length s
  obtain ⟨back,known,right⟩ := strip_pieces spacesBack rest.length rest.reverse
  refine ⟨front,(back.map List.reverse).reverse,row,?_,?_⟩
  · intro p mem
    obtain ⟨q,held,rfl⟩ := List.mem_map.mp (mem_reverse.mp mem)
    obtain ⟨r,space,rfl⟩ := List.mem_map.mp (known q held)
    rwa [reverse_reverse]
  · have whole : rest = trimSpace s ++ (back.map List.reverse).reverse.flatten := by
      rw [← reverse_flatten,← reverse_reverse rest,right,reverse_append]
      rfl
    rw [append_assoc,← whole]
    exact left

theorem trimSpace_inside : trimSpace s <:+: s := by
  obtain ⟨front,back,_,_,whole⟩ := trimSpace_parts s
  exact ⟨front.flatten,back.flatten,whole.symm⟩

theorem trimSpace_dropped {l : List GoString} (row : ∀ p ∈ l, p ∈ spaces) (other : GoString) :
    trimSpace (l.flatten ++ other) = trimSpace other := by
  simp only [trimSpace,strip_row spaces_filled spaces_free row]

def isASCIISpace (b : UInt8) : Bool := b == 32 || b == 9 || b == 10 || b == 13
def trimString : GoString := ((s.dropWhile isASCIISpace).reverse.dropWhile isASCIISpace).reverse

end

theorem ascii_space (blank : isASCIISpace b) : [b] ∈ spaces := by
  simp only [isASCIISpace,Bool.or_eq_true,beq_iff_eq] at blank
  rcases blank with ((same | same) | same) | same <;> subst same <;> decide

theorem ascii_space_reversed (blank : isASCIISpace b) : [b] ∈ spacesBack :=
  List.mem_map.mpr ⟨[b],ascii_space blank,rfl⟩

def solid (b : UInt8) : Bool := spaces.all fun p => p.head? != some b && p.getLast? != some b

theorem solid_strip (plain : solid b) (rest : GoString) : spaces.findSome? (cutPrefix (b :: rest)) = none := by
  rw [unfound]
  intro p mem starts
  have apart := List.all_eq_true.mp plain p mem
  cases p with
  | nil => exact absurd rfl (spaces_filled [] mem)
  | cons c p => cases (cons_prefix_cons.mp starts).1; simp at apart

theorem solid_strip_reversed (plain : solid b) (rest : GoString) :
    spacesBack.findSome? (cutPrefix (b :: rest)) = none := by
  rw [unfound]
  intro q mem starts
  obtain ⟨p,known,same⟩ := List.mem_map.mp mem
  have apart := List.all_eq_true.mp plain p known
  cases q with
  | nil => exact absurd rfl (spacesBack_filled [] mem)
  | cons c q =>
    cases (cons_prefix_cons.mp starts).1
    have last : p.getLast? = some b := by rw [← reverse_reverse p,same,getLast?_reverse]; rfl
    simp [last] at apart

theorem blank_row (blanks : ∀ b ∈ pad, [b] ∈ pieces) : ∃ ps : List GoString, (∀ p ∈ ps, p ∈ pieces) ∧ pad = ps.flatten :=
  ⟨pad.map ([·]),forall_mem_map.mpr blanks,by simp [← flatMap_def]⟩

theorem trimSpace_padded (left : ∀ b ∈ pad, isASCIISpace b) (right : ∀ b ∈ tail, isASCIISpace b)
    (first : solid b) (last : solid c) (shape : core = b :: more) (ends : core.reverse = c :: less) :
    trimSpace (pad ++ core ++ tail) = core := by
  obtain ⟨front,row,rfl⟩ := blank_row fun b mem => ascii_space (left b mem)
  obtain ⟨back,known,same⟩ := blank_row fun b mem => ascii_space_reversed (right b (mem_reverse.mp mem))
  have cleared := strip_unique spaces_filled spaces_free row (solid_strip first (more ++ tail)) le_rfl
  have ended := strip_unique spacesBack_filled spacesBack_free known (solid_strip_reversed last less) le_rfl
  rw [← cons_append,← shape,← append_assoc] at cleared
  rw [← same,← ends,← reverse_append,length_reverse] at ended
  rw [trimSpace,cleared,ended,reverse_reverse]

theorem trimSpace_solid (plain : ∀ b ∈ s, solid b) : trimSpace s = s := by
  cases shape : s with
  | nil => rfl
  | cons b more =>
    obtain ⟨c,less,ends⟩ := exists_cons_of_ne_nil (mt reverse_eq_nil_iff.mp (by simp [shape] : s ≠ []))
    have last : c ∈ s := mem_reverse.mp (ends ▸ mem_cons_self ..)
    have trimmed : trimSpace ([] ++ s ++ []) = s :=
      trimSpace_padded nofun nofun (plain b (by simp [shape])) (plain c last) shape ends
    rw [← shape]
    simpa using trimmed

theorem trimSpace_blank (blank : isASCIISpace b) (s : GoString) : trimSpace (b :: s) = trimSpace s :=
  trimSpace_dropped (l := [[b]]) (by simpa using ascii_space blank) s

theorem trimString_split (s : GoString) : ∃ pad tail, s = pad ++ trimString s ++ tail ∧
    (∀ b ∈ pad, isASCIISpace b) ∧ ∀ b ∈ tail, isASCIISpace b := by
  have front := takeWhile_append_dropWhile (p := isASCIISpace) (l := s)
  have back := takeWhile_append_dropWhile (p := isASCIISpace) (l := (s.dropWhile isASCIISpace).reverse)
  refine ⟨s.takeWhile isASCIISpace,((s.dropWhile isASCIISpace).reverse.takeWhile isASCIISpace).reverse,?_,?_,?_⟩
  · rw [append_assoc,trimString,← reverse_append,back,reverse_reverse,front]
  · intro b mem; exact mem_takeWhile_imp mem
  · intro b mem; exact mem_takeWhile_imp (mem_reverse.mp mem)

theorem trimString_same (first : ∀ b more, s = b :: more → isASCIISpace b = false)
    (last : ∀ b less, s.reverse = b :: less → isASCIISpace b = false) : trimString s = s := by
  have front : s.dropWhile isASCIISpace = s := by
    cases shape : s with
    | nil => rfl
    | cons b more => simp [first b more shape]
  have back : s.reverse.dropWhile isASCIISpace = s.reverse := by
    cases shape : s.reverse with
    | nil => rfl
    | cons b less => simp [last b less shape]
  rw [trimString,front,back,reverse_reverse]

theorem trimSpace_done (s : GoString) : spaces.findSome? (cutPrefix (trimSpace s)) = none ∧
    spacesBack.findSome? (cutPrefix (trimSpace s).reverse) = none := by
  constructor
  · rw [unfound]
    intro p mem starts
    exact unfound.mp (strip_done spaces_filled le_rfl) p mem (starts.trans (trimSpace_begins s))
  · simp only [trimSpace,reverse_reverse]
    exact strip_done spacesBack_filled (by simp)

theorem trimSpace_same (front : spaces.findSome? (cutPrefix s) = none) (back : spacesBack.findSome? (cutPrefix s.reverse) = none) :
    trimSpace s = s := by
  rw [trimSpace,strip_none front,strip_none back,reverse_reverse]

theorem trimSpace_idem (s : GoString) : trimSpace (trimSpace s) = trimSpace s :=
  trimSpace_same (trimSpace_done s).1 (trimSpace_done s).2

theorem trimSpace_fixed : trimSpace s = s ↔ (∀ p ∈ spaces, ¬ p <+: s) ∧ ∀ p ∈ spaces, ¬ p <:+ s := by
  have ends : (∀ p ∈ spacesBack, ¬ p <+: s.reverse) ↔ ∀ p ∈ spaces, ¬ p <:+ s := by
    simp only [forall_mem_map, reverse_prefix]
  rw [← ends,← unfound,← unfound]
  constructor
  · intro fixed
    have done := trimSpace_done s
    rwa [fixed] at done
  · rintro ⟨front,back⟩; exact trimSpace_same front back

theorem trimSpace_first (shape : trimSpace s = b :: more) : isASCIISpace b = false := by
  apply Bool.eq_false_iff.mpr
  intro blank
  have missed := unfound.mp (trimSpace_done s).1 [b] (ascii_space blank)
  exact missed ⟨more,shape.symm⟩

theorem trimSpace_last (shape : (trimSpace s).reverse = b :: less) : isASCIISpace b = false := by
  apply Bool.eq_false_iff.mpr
  intro blank
  have missed := unfound.mp (trimSpace_done s).2 [b] (ascii_space_reversed blank)
  exact missed ⟨less,shape.symm⟩

theorem trimString_trimSpace (s : GoString) : trimString (trimSpace s) = trimSpace s :=
  trimString_same (fun _ _ shape => trimSpace_first shape) fun _ _ shape => trimSpace_last shape
theorem trimString_blank (blank : isASCIISpace b) (s : GoString) : trimString (b :: s) = trimString s := by
  simp [trimString,blank]

theorem infix_dropWhile (within : t <:+: s) (first : ∀ b more, t = b :: more → isASCIISpace b = false) :
    t <:+: s.dropWhile isASCIISpace := by
  obtain ⟨a,z,whole⟩ := within
  subst whole
  cases t with
  | nil => exact nil_infix
  | cons b more =>
    have solid := first b more rfl
    refine ⟨a.dropWhile isASCIISpace,z,?_⟩
    rw [append_assoc,append_assoc,dropWhile_append]
    cases gone : (a.dropWhile isASCIISpace).isEmpty with
    | true => simp [List.isEmpty_iff.mp gone,solid]
    | false => simp

theorem trimSpace_within (s : GoString) : trimSpace s <:+: trimString s := by
  have front := infix_dropWhile (trimSpace_inside s) fun _ _ shape => trimSpace_first shape
  have back := infix_dropWhile ( reverse_infix.mpr front) fun _ _ shape => trimSpace_last shape
  exact reverse_infix.mp (by simpa [trimString] using back)

theorem trimSpace_split (s : GoString) : ∃ gone tail, s = gone ++ trimSpace s ++ tail ∧
    (∀ b ∈ gone, ∃ p ∈ spaces, b ∈ p) ∧ (∀ b ∈ tail, ∃ p ∈ spaces, b ∈ p) ∧
      ∀ other, trimSpace (gone ++ other) = trimSpace other := by
  obtain ⟨front,back,row,known,whole⟩ := trimSpace_parts s
  have bytes {ps : List GoString} (row : ∀ p ∈ ps, p ∈ spaces) (b : UInt8) (mem : b ∈ ps.flatten) : ∃ p ∈ spaces, b ∈ p := by
    obtain ⟨p,held,inside⟩ := mem_flatten.mp mem
    exact ⟨p,row p held,inside⟩
  exact ⟨front.flatten,back.flatten,whole,bytes row,bytes known,trimSpace_dropped row⟩

theorem trimSpace_row (blank : trimSpace s = []) : ∃ ps : List GoString, (∀ p ∈ ps, p ∈ spaces) ∧ s = ps.flatten := by
  obtain ⟨front,back,row,known,whole⟩ := trimSpace_parts s
  rw [blank,append_nil,← flatten_append] at whole
  exact ⟨front ++ back,forall_mem_append.mpr ⟨row,known⟩,whole⟩

theorem blank_free (blank : trimSpace s = []) (other : ∀ p ∈ spaces, b ∉ p) : b ∉ s := by
  intro mem
  obtain ⟨ps,row,whole⟩ := trimSpace_row blank
  obtain ⟨p,held,inside⟩ := mem_flatten.mp (whole ▸ mem)
  exact other p (row p held) inside

def Tables.SpacesKept (u : Tables) : Prop := ∀ r ∈ whiteSpace, u.lower r = r

theorem runes_space : ∀ r ∈ whiteSpace, ∀ t, runes (encodeRune r ++ t) = r :: runes t := by
  simp only [whiteSpace,forall_mem_cons,not_mem_nil,false_implies,implies_true,and_true]
  refine ⟨?_,?_,?_,?_,?_,?_,?_,?_,?_,?_,?_,?_,?_,?_,?_,?_,?_,?_,?_,?_,?_,?_,?_,?_,?_⟩ <;> exact fun _ => rfl

theorem toLower_blank (kept : Tables.SpacesKept u) (blank : trimSpace s = []) : toLower u s = s := by
  obtain ⟨ps,row,whole⟩ := trimSpace_row blank
  unfold toLower mapCase
  split
  · have bytes : ∀ p ∈ spaces, ∀ b ∈ p, (asciiLower b.toNat).toUInt8 = b := by decide +kernel
    refine (map_congr_left ?_).trans (List.map_id _)
    intro b mem
    obtain ⟨p,held,inside⟩ := mem_flatten.mp (whole ▸ mem)
    exact bytes p (row p held) b inside
  · rw [whole]
    clear whole blank
    induction ps with
    | nil => rfl
    | cons p ps ih =>
      obtain ⟨r,known,same⟩ := List.mem_map.mp (row p (mem_cons_self ..))
      rw [flatten_cons,← same,runes_space r known,flatMap_cons,kept r known,ih (forall_mem_cons.mp row).2]

end

def formatBool (b : Bool) : GoString := if b then lit "true" else lit "false"
def isDigit (b : UInt8) : Bool := 48 ≤ b && b ≤ 57
def maxInt : Nat := 2^63-1

def signed (negative : Bool) (n : Nat) : Int × Bool :=
  if negative then (if n ≤ maxInt+1 then (-n,true) else (-(maxInt+1),false))
  else if n ≤ maxInt then (n,true) else (maxInt,false)

def atoiDigits (negative : Bool) (s : GoString) : Int × Bool :=
  if s ≠ [] && s.all isDigit then signed negative (Nat.ofDigitChars 10 (s.map fun b => Char.ofNat b.toNat) 0) else (0,false)

-- On a 64-bit machine; a number out of range comes with the nearest bound.
def atoi : GoString → Int × Bool
  | [] => (0,false)
  | b :: t => if b = byte '-' then atoiDigits true t else if b = byte '+' then atoiDigits false t else atoiDigits false (b :: t)

theorem decimal_filled (n : Nat) : decimal n ≠ [] := by
  simp [decimal]

theorem decimal_isDigit (n : Nat) : (decimal n).all isDigit := by
  rw [List.all_eq_true]
  intro b mem
  obtain ⟨low,high⟩ := decimal_digits mem
  simp only [isDigit,Bool.and_eq_true,decide_eq_true_eq,UInt8.le_iff_toNat_le]
  exact ⟨low,high⟩

theorem digit_solid : ∀ b, isDigit b → solid b := every_byte (by decide +kernel)
theorem trimSpace_decimal (n : Nat) : trimSpace (decimal n) = decimal n :=
  trimSpace_solid fun b mem => digit_solid b (List.all_eq_true.mp (decimal_isDigit n) b mem)

theorem atoi_decimal (small : n ≤ maxInt) : atoi (decimal n) = (↑n,true) := by
  have value : atoiDigits false (decimal n) = (↑n,true) := by
    simp only [atoiDigits,decimal_filled,decimal_isDigit,ne_eq,not_false_eq_true,decide_true,Bool.and_self,↓reduceIte]
    rw [decimal_chars,Nat.ofDigitChars_ten_toDigits]
    simp [signed,small]
  have unsigned : ∀ b t, decimal n = b :: t → b ≠ byte '-' ∧ b ≠ byte '+' := by
    intro b t shape
    have low := (decimal_digits (shape ▸ List.mem_cons_self .. : b ∈ decimal n)).1
    constructor <;>
    · rintro rfl; exact absurd low (by decide)
  cases shape : decimal n with
  | nil => exact absurd shape (decimal_filled n)
  | cons b t => obtain ⟨minus,plus⟩ := unsigned b t shape; rw [atoi,if_neg minus,if_neg plus,← shape,value]

theorem formatBool_inj (same : formatBool a ++ x = formatBool b ++ y) : a = b ∧ x = y := by
  have lits : lit "true" = [116,114,117,101] ∧ lit "false" = [102,97,108,115,101] := by decide
  cases a with
  | true =>
    cases b with
    | true => simpa [formatBool] using same
    | false => simp [formatBool,lits] at same
  | false =>
    cases b with
    | true => simp [formatBool,lits] at same
    | false => simpa [formatBool] using same

end Gateon.Go
