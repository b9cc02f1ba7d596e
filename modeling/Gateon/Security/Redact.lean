import Gateon.Go.Encoding
import Gateon.Go.Http
import Gateon.Lib.CutScan
import Gateon.Security.SecretMask

namespace Gateon.Security.Redact
open Go CutScan List Option Nat

def Mask : GoString := lit "[REDACTED]"
def quotedMask : GoString := lit "\"" ++ Mask ++ lit "\""
def credentialParams : List GoString :=
  [lit "code",lit "state",lit "pass",lit "pwd",lit "pin",lit "otp",lit "sig",lit "ticket",lit "samlresponse"]
def publicHeaders : List GoString :=
  [lit "www-authenticate",lit "proxy-authenticate",lit "sec-websocket-key",lit "sec-websocket-accept",lit "sec-websocket-protocol"]

section
variable (u : Tables)

section
variable (name : GoString)

def equalsAnyFold (names : List GoString) : Bool := names.any (equalFold u (trimSpace name))
def isCredentialParam : Bool :=
  name != [] && (isCredentialName u name || equalsAnyFold u name credentialParams)
def isCredentialHeader : Bool := isCredentialName u name && !equalsAnyFold u name publicHeaders
def hasPrefixFold (s pre : GoString) : Bool := decide (pre.length ≤ s.length) && equalFold u (s.take pre.length) pre
section
variable (c : UInt8)

def isNameByte : Bool := isAlnum c || (lit "_-.[]%").contains c
def isBase64URL : Bool := isAlnum c || c == byte '-' || c == byte '_'
def isToken68 : Bool := isAlnum c || (lit "-._~+/=").contains c
def run (p : UInt8 → Bool) (t : GoString) : Nat := (t.takeWhile p).length
def isSpace : Bool := c == 32 || c == 9 || c == 13 || c == 10
def isBlank : Bool := c == 32 || c == 9

end

def skipSpace (t : GoString) : Nat := run isSpace t
def skipBlank (t : GoString) : Nat := run isBlank t

-- After the opening quote: how much the string takes with its closing quote.
def stringEnd : GoString → Option Nat
  | [] => none
  | c :: t =>
    if c = byte '\\' then match t with
      | [] => none
      | _ :: t => (stringEnd t).map (· + 2)
    else if c = byte '"' then some 1
    else (stringEnd t).map (· + 1)

-- How much an object or array takes; inside a string only its end counts.
def compositeEnd : Nat → Nat → GoString → Option Nat
  | 0,_,_ => none
  | _+1,_,[] => none
  | fuel+1,depth,c :: t =>
    if c = byte '"' then (stringEnd t).bind fun l => (compositeEnd fuel depth (t.drop l)).map (· + (l+1))
    else if c = byte '\x7b' || c = byte '[' then (compositeEnd fuel (depth+1) t).map (· + 1)
    else if c = byte '\x7d' || c = byte ']' then
      if depth = 1 then some 1 else (compositeEnd fuel (depth-1) t).map (· + 1)
    else (compositeEnd fuel depth t).map (· + 1)

def bareStop : GoString := lit ",\x7d] \t\r\n"
def isLiteral (v : GoString) : Bool := v == lit "null" || v == lit "true" || v == lit "false"

-- The span and the offset after the value; an unclosed value goes on to the end.
def jsonValue (t : GoString) : Move GoString :=
  match t with
  | [] => .pass 0
  | c :: rest =>
    if c = byte '"' then match stringEnd rest with
      | none => .hit Mask 1 t.length t.length
      | some l => .hit Mask 1 l (l+1)
    else if c = byte '\x7b' || c = byte '[' then
      let stop := (compositeEnd t.length 0 t).getD t.length
      .hit quotedMask 0 stop stop
    else
      let stop := run (fun b => !bareStop.contains b) t
      if isLiteral (t.take stop) then .pass stop else .hit quotedMask 0 stop stop

def shifted (by_ : Nat) : Move GoString → Move GoString
  | .halt => .halt
  | .pass k => .pass (by_+k)
  | .hit l i j k => if i < j then .hit l (by_+i) (by_+j) (by_+k) else .pass (by_+k)

section
variable (rest : GoString) (l : Nat)

def memberColon : Nat := l+1 + skipSpace (rest.drop (l+1))
def memberValue : Nat := memberColon rest l + 1 + skipSpace (rest.drop (memberColon rest l + 1))
def isMember : Bool :=
  rest[memberColon rest l]? == some (byte ':') && isCredentialParam u ((rest.drop 1).take (l-1))

end

def jsonAt (_ rest : GoString) : Move GoString :=
  match rest with
  | [] => .halt
  | c :: t =>
    if c ≠ byte '"' then .pass 1
    else match stringEnd t with
      | none => .halt
      | some l =>
        if isMember u rest l then shifted (memberValue rest l) (jsonValue (rest.drop (memberValue rest l)))
        else .pass (l+1)

def pairStop : GoString := lit "&; \t\r\n\"'<>"
def paramName : GoString :=
  if name.contains (byte '%') || name.contains (byte '+') then (queryUnescape name).getD name else name

end

def pairValue (t : GoString) : Nat × Nat :=
  match t with
  | [] => (0,0)
  | q :: rest =>
    if q = byte '"' || q = byte '\'' then (1,1 + ((indexByte rest q).getD rest.length))
    else (0,run (fun b => !pairStop.contains b) t)

def nameBefore (done : GoString) : GoString := (done.reverse.takeWhile isNameByte).reverse

def pairAt (done rest : GoString) : Move GoString :=
  match rest with
  | [] => .halt
  | c :: t =>
    if c ≠ byte '=' then .pass 1
    else
      let name := nameBefore done
      if name == [] || !isCredentialParam u (paramName name) then .pass 1
      else
        let value := pairValue t
        if value.1 < value.2 then .hit Mask (value.1+1) (value.2+1) (value.2+1) else .pass (value.2+1)

def marker : GoString := lit "name=\""

section
variable (t : GoString)

def partEnd : Nat :=
  match index (lit "\n--") t with
  | none => t.length
  | some b => if 0 < b && t[b-1]? == some 13 then b-1 else b

def blankLine : Option Nat :=
  match index (lit "\r\n\r\n") t,index (lit "\n\n") t with
  | none,none => none
  | some b,none => some (b+4)
  | none,some lf => some (lf+2)
  | some b,some lf => if lf < b then some (lf+2) else some (b+4)

def partContent : Option (Nat × Nat) := (blankLine t).map fun start => (start,start + partEnd (t.drop start))
def onDispositionLine (done : GoString) : Bool :=
  hasPrefixFold u (done.reverse.takeWhile (· != 10)).reverse (lit "content-disposition:")

def partMove (rest : GoString) (i : Nat) : Move GoString :=
  match partContent (rest.drop i) with
  | none => .pass i
  | some (start,stop) => if start < stop then .hit Mask (i+start) (i+stop) (i+stop) else .pass i

def multipartAt (done rest : GoString) : Move GoString :=
  if !hasPrefix rest marker then .pass 1
  else match indexByte (rest.drop marker.length) (byte '"') with
    | none => .halt
    | some e =>
      let i := marker.length + e
      if done.getLast?.any isNameByte || !onDispositionLine u done || !isCredentialParam u ((rest.drop marker.length).take e) then .pass i
      else partMove rest i

def isHeaderName (s : GoString) : Bool := s.all fun c => isAlnum c || c == byte '-'

def headerColon (line : GoString) : Option Nat :=
  (indexByte line (byte ':')).filter fun colon =>
    0 < colon && isHeaderName (line.take colon) && isCredentialHeader u (line.take colon)

def headerStart (rest : GoString) (colon : Nat) : Nat := colon+1 + skipBlank (rest.drop (colon+1))
def headerStop (rest : GoString) (start stop : Nat) : Nat := if start < stop && rest[stop-1]? == some 13 then stop-1 else stop

def headerAt (_ rest : GoString) : Move GoString :=
  let stop := run (· != 10) rest
  match headerColon u (rest.take stop) with
  | none => .pass (stop+1)
  | some colon =>
    let start := headerStart rest colon
    if start < headerStop rest start stop then .hit Mask start (headerStop rest start stop) (stop+1) else .pass (stop+1)

def minBearerLen : Nat := 8

def schemeWord (rest : GoString) : Option (Nat × Bool) :=
  if hasPrefixFold u rest (lit "bearer") then some (6,false) else if hasPrefixFold u rest (lit "basic") then some (5,true) else none
def afterWord (rest : GoString) (word : Nat × Bool) : Option (Nat × Bool) :=
  if (rest[word.1]?).any isBlank then some (word.1 + skipSpace (rest.drop word.1),word.2) else none
def schemeAt (rest : GoString) : Option (Nat × Bool) := (schemeWord u rest).bind (afterWord rest)

def stdAlphabet : List UInt8 := lit "ABCDEFGHIJKLMNOPQRSTUVWXYZabcdefghijklmnopqrstuvwxyz0123456789+/"

-- Whole quanta whose last may be padded, or what is left without padding.
def rawStdDecode (s : GoString) : Option (List UInt8) := (s.mapM fun c => stdAlphabet.findIdx? (· == c)).bind base64Bytes

def stdDecode (s : GoString) : Option (List UInt8) :=
  if s.length % 4 ≠ 0 then none
  else
    let digits := s.reverse.dropWhile (· == byte '=')
    if s.length - digits.length ≤ 2 then rawStdDecode digits.reverse else none

def isBasicCredential (tok : GoString) : Bool :=
  match stdDecode tok with
  | some b => b.contains (byte ':')
  | none => match rawStdDecode tok with
    | some b => b.contains (byte ':')
    | none => false

def recognised (basic : Bool) (tok : GoString) : Bool := if basic then isBasicCredential tok else decide (minBearerLen ≤ tok.length)

def schemeMove (done rest : GoString) : Move Bool :=
  match rest with
  | [] => .halt
  | c :: _ =>
    if c ||| 32 ≠ byte 'b' || done.getLast?.any isAlnum then .pass 1
    else match schemeAt u rest with
      | none => .pass 1
      | some (start,basic) =>
        let stop := start + run isToken68 (rest.drop start)
        if recognised basic ((rest.drop start).take (stop-start)) then .hit basic start stop stop else .pass 1

def segment : Option Nat :=
  let r := run isBase64URL t
  if 4 ≤ r && t[r]? == some (byte '.') then some (r+1) else none

def jwtEnd : Option Nat :=
  (segment t).bind fun one => (segment (t.drop one)).map fun two => one + two + run isBase64URL (t.drop (one+two))

end

def jwtAt (done rest : GoString) : Move GoString :=
  if !hasPrefix rest (lit "eyJ") then .pass 1
  else if done.getLast?.any isBase64URL then .pass 3
  else match jwtEnd rest with
    | none => .pass 3
    | some stop => .hit Mask 0 stop stop

def tokenPrefixes : List GoString :=
  [lit "gateon_tok_",lit "v1.local.",lit "v1.public.",lit "v2.local.",lit "v2.public.",lit "v3.local.",lit "v3.public.",lit "v4.local.",
    lit "v4.public.",lit "bearer%20",lit "bearer+",lit "basic%20",lit "basic+"]

def plainTokenPrefixes : List GoString := tokenPrefixes.filter fun p => !(p.contains (byte '%') || p.contains (byte '+'))
def plainPrefixStart (c : UInt8) : Bool := plainTokenPrefixes.any fun p => c == p.headD 0 ||| 32 || c == p.headD 0 &&& (~~~ 32)
def plainPrefixAt (s : GoString) : Option Nat := (plainTokenPrefixes.find? (hasPrefixFold u s)).map List.length

def prefixAt (_ rest : GoString) : Move GoString :=
  match rest with
  | [] => .halt
  | c :: _ =>
    if !plainPrefixStart c then .pass 1
    else match plainPrefixAt u rest with
      | none => .pass 1
      | some start =>
        let stop := start + run (fun b => isBase64URL b || b == byte '.') (rest.drop start)
        if start < stop then .hit Mask start stop stop else .pass stop

section
variable (s : GoString)
include s

def jsonSpans : List (Span GoString) := scanAll (jsonAt u) s
def headerLineSpans : List (Span GoString) := scanAll (headerAt u) s
def pairSpans : List (Span GoString) := scanAll (pairAt u) s
def multipartSpans : List (Span GoString) := scanAll (multipartAt u) s
def schemes : List (Span Bool) := scanAll (schemeMove u) s
def schemeSpans : List (Span GoString) := (schemes u s).map fun span => ⟨Mask,span.start,span.stop⟩
def jwtSpans : List (Span GoString) := scanAll jwtAt s
def prefixSpans : List (Span GoString) := scanAll (prefixAt u) s
def spans : List (Span GoString) :=
  jsonSpans u s ++ headerLineSpans u s ++ pairSpans u s ++ multipartSpans u s ++ schemeSpans u s ++ jwtSpans s ++ prefixSpans u s

end

def spanBefore (a b : Span GoString) : Bool := if a.start ≠ b.start then a.start ≤ b.start else b.stop ≤ a.stop

def mergeInto (cur : Span GoString) : List (Span GoString) → List (Span GoString)
  | [] => [cur]
  | span :: rest =>
    if span.start < cur.stop then mergeInto ⟨cur.label,cur.start,max cur.stop span.stop⟩ rest
    else cur :: mergeInto span rest

def merge : List (Span GoString) → List (Span GoString)
  | [] => []
  | span :: rest => mergeInto span rest

section
variable (s : GoString)

def replaceFrom : Nat → List (Span GoString) → GoString
  | pos,[] => s.drop pos
  | pos,span :: rest => (s.drop pos).take (span.start - pos) ++ span.label ++ replaceFrom span.stop rest

def apply (spans : List (Span GoString)) : GoString :=
  if spans.isEmpty then s else replaceFrom s 0 (merge (spans.mergeSort spanBefore))
def Text : GoString := apply s (spans u s)
def MaxBodyBytes : Nat := 65536
def truncatedNote : GoString := lit "\n[truncated]"
def runeWidth (b : UInt8) : Nat := if b < 0xC2 || 0xF5 ≤ b then 1 else if b < 0xE0 then 2 else if b < 0xF0 then 3 else 4
def secondByte (b c : UInt8) : Bool :=
  isCont c && (b != 0xE0 || 0xA0 ≤ c) && (b != 0xED || c ≤ 0x9F) && (b != 0xF0 || 0x90 ≤ c) && (b != 0xF4 || c ≤ 0x8F)

def fullRune : GoString → Bool
  | [] => false
  | b :: t => decide (runeWidth b ≤ t.length+1) || t.head?.any (fun c => !secondByte b c) || (t[1]?).any fun c => !isCont c

def trimPartialRune : GoString :=
  match [1,2,3,4].find? fun k => (s[s.length-k]?).any fun b => decide (k ≤ s.length) && !isCont b with
  | none => s
  | some k => if fullRune (s.drop (s.length-k)) then s else s.take (s.length-k)

def isText : Bool := s.all (fun c => !(c < 32 && c != 9 && c != 10 && c != 13 || c == 127)) && validString s

end

def Body (body : GoString) : GoString :=
  if body = [] then []
  else
    let kept := trimPartialRune (body.take MaxBodyBytes)
    if !isText kept then lit "[" ++ decimal body.length ++ lit "-byte non-text body not kept]"
    else if MaxBodyBytes < body.length then Text u kept ++ truncatedNote
    else Text u kept

end

theorem run_take (p : UInt8 → Bool) (t : GoString) (m : Nat) : run p (t.take m) = min (run p t) m := by
  rw [run,← take_takeWhile,length_take,min_comm,run]

theorem filter_shift (found : Option Nat) (k m : Nat) : (found.map (· + k)).filter (· ≤ m + k) = (found.filter (· ≤ m)).map (· + k) := by
  cases found with
  | none => rfl
  | some l => simp [Option.filter]

theorem stringEnd_quote (t : GoString) : stringEnd (byte '"' :: t) = some 1 := by
  unfold stringEnd
  rw [if_neg (by decide),if_pos rfl]

theorem stringEnd_other (escape : c ≠ byte '\\') (quote : c ≠ byte '"') (t : GoString) :
    stringEnd (c :: t) = (stringEnd t).map (· + 1) := by
  conv => lhs; unfold stringEnd
  rw [if_neg escape,if_neg quote]

theorem stringEnd_escape (d : UInt8) (t : GoString) : stringEnd (byte '\\' :: d :: t) = (stringEnd t).map (· + 2) := by
  conv => lhs; unfold stringEnd
  rw [if_pos rfl]

theorem stringEnd_take (t : GoString) (m : Nat) : stringEnd (t.take m) = (stringEnd t).filter (· ≤ m) := by
  fun_induction stringEnd t generalizing m with
  | case1 => simp [stringEnd]
  | case2 =>
    cases m <;> simp [stringEnd]
  | case3 d t ih =>
    rcases m with _ | _ | m
    · cases stringEnd t <;> simp [stringEnd,Option.filter]
    · cases stringEnd t <;> simp [stringEnd,Option.filter]
    · rw [show m+1+1 = m+2 from rfl,filter_shift _ 2,← ih,take_succ_cons,take_succ_cons,stringEnd_escape]
  | case4 t apart =>
    cases m with
    | zero => rfl
    | succ m => rw [take_succ_cons,stringEnd_quote]; simp [Option.filter]
  | case5 c t apart other ih =>
    cases m with
    | zero => cases stringEnd t <;> simp [stringEnd,Option.filter]
    | succ m => rw [filter_shift,← ih,take_succ_cons,stringEnd_other apart other]

theorem hasPrefix_take (t p : GoString) (m : Nat) : hasPrefix (t.take m) p = (hasPrefix t p && decide (p.length ≤ m)) := by
  rw [Bool.eq_iff_iff,Bool.and_eq_true,decide_eq_true_eq,hasPrefix,hasPrefix, isPrefixOf_iff_prefix, isPrefixOf_iff_prefix,
    prefix_take_iff]

theorem index_take (sub t : GoString) (m : Nat) (filled : sub ≠ []) :
    index sub (t.take m) = (index sub t).filter fun i => i + sub.length ≤ m := by
  have long : 0 < sub.length := length_pos_iff.mpr filled
  induction t generalizing m with
  | nil => simp [index,filled]
  | cons c t ih =>
    cases m with
    | zero => simp [index,filled]
    | succ m =>
      have here := hasPrefix_take (c :: t) sub (m+1)
      rw [take_succ_cons] at here ⊢
      rw [index,index]
      unfold hasPrefix at here
      cases starts : sub.isPrefixOf (c :: t) with
      | true =>
        rw [starts,Bool.true_and] at here
        by_cases fits : sub.length ≤ m+1
        · simp [here,fits,Option.filter]
        have short : index sub (t.take m) = none := by
          rw [ih]
          cases index sub t with
          | none => rfl
          | some i => simp only [Option.filter]; rw [if_neg (by simp; omega)]
        simp [here,fits,short,Option.filter]
      | false =>
        rw [starts,Bool.false_and] at here
        simp only [here,Bool.false_eq_true,if_false]
        rw [ih]
        cases index sub t with
        | none => rfl
        | some i => simp [Option.filter,add_right_comm]

theorem indexByte_take (t : GoString) (c : UInt8) (m : Nat) : indexByte (t.take m) c = (indexByte t c).filter (· < m) := by
  rw [indexByte,findIdx?_take,bind_guard,indexByte]

theorem hasPrefixFold_take (u : Tables) (t p : GoString) (m : Nat) :
    hasPrefixFold u (t.take m) p = (hasPrefixFold u t p && decide (p.length ≤ m)) := by
  unfold hasPrefixFold
  by_cases fits : p.length ≤ m
  · rw [take_take,min_eq_left fits,length_take]; simp [fits]
  · simp [length_take,fits]

theorem compositeEnd_positive (found : compositeEnd fuel depth t = some l) : 0 < l := by
  cases fuel with
  | zero => cases found
  | succ fuel =>
    cases t with
    | nil => cases found
    | cons c t =>
      rw [compositeEnd] at found
      have shifted {o : Option Nat} {k : Nat} (found : o.map (· + (k+1)) = some l) : 0 < l := by
        obtain ⟨r,_,rfl⟩ := map_eq_some_iff.mp found
        omega
      (repeat' split at found)
      · obtain ⟨r,_,rest⟩ := bind_eq_some_iff.mp found; exact shifted rest
      · exact shifted found
      · cases found; decide
      · exact shifted found
      · exact shifted found

theorem compositeEnd_take (fuel depth : Nat) (t : GoString) (m : Nat) :
    compositeEnd fuel depth (t.take m) = (compositeEnd fuel depth t).filter (· ≤ m) := by
  induction fuel generalizing depth t m with
  | zero => rfl
  | succ fuel ih =>
    cases t with
    | nil => simp [compositeEnd]
    | cons c t =>
      cases m with
      | zero =>
        cases found : compositeEnd (fuel+1) depth (c :: t) with
        | none => rfl
        | some l =>
          have positive := compositeEnd_positive found
          simp [compositeEnd,Option.filter]
          omega
      | succ m =>
        rw [take_succ_cons,compositeEnd,compositeEnd]
        split
        · rw [stringEnd_take]
          cases stringEnd t with
          | none => rfl
          | some l =>
            by_cases fits : l ≤ m
            · rw [filter_some_pos (by simpa using fits),bind_some,bind_some,drop_take,ih,← filter_shift,
                show m - l + (l+1) = m+1 by omega]
            rw [filter_some_neg (by simpa using fits),bind_none,bind_some]
            cases compositeEnd fuel depth (t.drop l) with
            | none => rfl
            | some r => simp [Option.filter]; omega
        · split
          · rw [filter_shift,ih]
          split
          · split
            · simp [Option.filter]
            · rw [filter_shift,ih]
          · rw [filter_shift,ih]

theorem compositeEnd_fuel (depth : Nat) (t : GoString) (enough : t.length ≤ fuel) :
    compositeEnd fuel depth t = compositeEnd t.length depth t := by
  have grows : ∀ n depth (t : GoString), t.length ≤ n → compositeEnd (n+1) depth t = compositeEnd n depth t := by
    intro n
    induction n with
    | zero =>
      intro depth t short
      cases t with
      | nil => rfl
      | cons c t => simp at short
    | succ n ih =>
      intro depth t short
      cases t with
      | nil => rfl
      | cons c t =>
        have tail : t.length ≤ n := by simpa using short
        rw [compositeEnd,compositeEnd]
        split
        · refine Option.bind_congr fun l _ => ?_
          rw [ih depth (t.drop l) (by rw [length_drop]; omega)]
        · rw [ih _ t tail,ih _ t tail,ih _ t tail]
  induction fuel with
  | zero => rw [le_zero.mp enough]
  | succ fuel ih =>
    rcases lt_or_eq_of_le enough with less | same
    · rw [grows fuel depth t (by omega),ih (by omega)]
    · rw [same]

variable {m : Nat}
variable {t : GoString}

theorem jsonValue_take (positive : 0 < m) (inside : m ≤ t.length) : jsonValue (t.take m) = jsonValue t ∨
    m ≤ (jsonValue t).next ∧ ∀ l i j k, jsonValue t = .hit l i j k → ∀ x, i ≤ x → x < j → x < m →
      (∃ l' i' j' k', jsonValue (t.take m) = .hit l' i' j' k' ∧ i' ≤ x ∧ x < j') ∨
        l = quotedMask ∧ i = 0 ∧ m < j ∧ isLiteral (t.take m) := by
  have size : (t.take m).length = m := by rw [length_take,min_eq_left inside]
  obtain ⟨m,rfl⟩ : ∃ k, m = k+1 := ⟨m-1,by omega⟩
  -- A value that the cut leaves open is still taken up to the cut.
  have opened {a : GoString} {b c d : Nat} {p : GoString → Nat → Nat → Prop} : ∀ l i j k, Move.hit a b c d = .hit l i j k → ∀ x, i ≤ x →
      x < j → x < m+1 → (∃ l' i' j' k', Move.hit a b (m+1) (m+1) = .hit l' i' j' k' ∧ i' ≤ x ∧ x < j') ∨ p l i j := by
    rintro l i j k ⟨⟩ x low _ below
    exact .inl ⟨_,_,_,_,rfl,low,below⟩
  cases t with
  | nil => simp at inside
  | cons c t =>
    rw [take_succ_cons] at size ⊢
    unfold jsonValue
    rw [size]
    by_cases quote : c = byte '"'
    · simp only [quote,if_true]
      rw [stringEnd_take]
      cases closed : stringEnd t with
      | none => exact .inr ⟨inside,opened⟩
      | some l =>
        by_cases fits : l ≤ m
        · rw [filter_some_pos (by simpa using fits)]; exact .inl rfl
        · rw [filter_some_neg (by simpa using fits)]; exact .inr ⟨show m+1 ≤ l+1 by omega,opened⟩
    simp only [quote,if_false]
    by_cases composite : (c = byte '\x7b' || c = byte '[')
    · simp only [composite,if_true]
      have cut := compositeEnd_take (t.length+1) 0 (c :: t) (m+1)
      rw [take_succ_cons,compositeEnd_fuel 0 (c :: t.take m) (by rw [size]; exact inside),size] at cut
      rw [cut]
      cases closed : compositeEnd (t.length+1) 0 (c :: t) with
      | none => exact .inr ⟨inside,opened⟩
      | some l =>
        by_cases fits : l ≤ m+1
        · rw [filter_some_pos (by simpa using fits)]; exact .inl rfl
        · rw [filter_some_neg (by simpa using fits)]; exact .inr ⟨show m+1 ≤ l by omega,opened⟩
    · simp only [composite,Bool.false_eq_true,if_false]
      have cut := run_take (fun b => !bareStop.contains b) (c :: t) (m+1)
      rw [take_succ_cons] at cut
      rw [cut]
      generalize run (fun b => !bareStop.contains b) (c :: t) = r
      by_cases fits : r ≤ m+1
      · rw [min_eq_left fits,← take_succ_cons,take_take,min_eq_left fits]; exact .inl rfl
      rw [min_eq_right (by omega),take_of_length_le size.le]
      right
      constructor
      · split <;> exact show m+1 ≤ r by omega
      intro l i j k whole x low high below
      split at whole
      · cases whole
      cases whole
      cases literal : isLiteral (c :: t.take m) with
      | true => exact .inr ⟨rfl,rfl,by omega,rfl⟩
      | false => exact .inl ⟨_,_,_,_,rfl,low,below⟩

theorem shifted_next (v : Nat) (move : Move GoString) (moves : move ≠ .halt) : (shifted v move).next = v + move.next := by
  cases move with
  | halt => exact absurd rfl moves
  | pass k => rfl
  | hit l i j k => simp only [shifted]; split <;> rfl

theorem shifted_hit (found : shifted v move = .hit l i j k) :
    ∃ i' j' k', move = .hit l i' j' k' ∧ i = v+i' ∧ j = v+j' ∧ k = v+k' := by
  cases move with
  | halt | pass k => cases found
  | hit l i j k =>
    simp only [shifted] at found
    split at found
    · cases found; exact ⟨_,_,_,rfl,rfl,rfl,rfl⟩
    · cases found

theorem jsonValue_moves (t : GoString) : jsonValue t ≠ .halt := by
  unfold jsonValue
  dsimp only
  (repeat' split) <;> (intro same; cases same)

theorem skipSpace_take (rest : GoString) (a m : Nat) (early : a ≤ m) : a + skipSpace ((rest.take m).drop a) = min (a + skipSpace (rest.drop a)) m := by
  rw [drop_take,skipSpace,run_take,skipSpace]
  omega

variable {rest : GoString}

theorem memberColon_take (early : l+1 ≤ m) : memberColon (rest.take m) l = min (memberColon rest l) m :=
  skipSpace_take rest (l+1) m early

theorem isMember_take (u : Tables) (early : l+1 ≤ m) :
    isMember u (rest.take m) l = (decide (memberColon rest l < m) && isMember u rest l) := by
  have name : ((rest.take m).drop 1).take (l-1) = (rest.drop 1).take (l-1) := by
    rw [drop_take,take_take,min_eq_left (by omega)]
  unfold isMember
  rw [memberColon_take early,name,getElem?_take]
  by_cases before : memberColon rest l < m
  · rw [min_eq_left before.le,if_pos before]; simp [before]
  · rw [Nat.min_eq_right (Nat.le_of_not_lt before),if_neg (Nat.lt_irrefl m)]; simp [before]

theorem memberValue_take (early : l+1 ≤ m) (before : memberColon rest l < m) :
    memberValue (rest.take m) l = min (memberValue rest l) m := by
  unfold memberValue
  rw [memberColon_take early,min_eq_left before.le]
  exact skipSpace_take rest (memberColon rest l + 1) m before

theorem jsonAt_member (u : Tables) (done : GoString) (closed : stringEnd t = some l) : jsonAt u done (byte '"' :: t) =
    if isMember u (byte '"' :: t) l then
      shifted (memberValue (byte '"' :: t) l) (jsonValue ((byte '"' :: t).drop (memberValue (byte '"' :: t) l)))
    else .pass (l+1) := by
  simp [jsonAt,closed]

theorem take_head (positive : 0 < m) : (c :: t).take m = c :: t.take (m-1) := by
  obtain ⟨k,rfl⟩ : ∃ k, m = k+1 := ⟨m-1,by omega⟩
  rfl

variable {lost : Nat → Prop}

theorem jsonAt_cut (u : Tables) (fuel : Nat) (positive : 0 < m) (inside : m ≤ rest.length)
    (literal : ∀ i j k, jsonAt u done rest = .hit quotedMask i j k → m < j → isLiteral ((rest.drop i).take (m-i)) →
      ∀ x, i ≤ x → x < m → lost (done.length + x)) : StepCut (jsonAt u) lost fuel done rest m := by
  cases rest with
  | nil => rw [length_nil] at inside; omega
  | cons c t =>
    have head := take_head (c := c) (t := t) positive
    by_cases quote : c = byte '"'
    · subst quote
      have beyond {l : Nat} (closed : stringEnd t = some l) (far : m ≤ l ∨ m ≤ memberColon (byte '"' :: t) l ∨ m ≤ memberValue (byte '"' :: t) l)
          (member : isMember u (byte '"' :: t) l) : StepCut (jsonAt u) lost fuel done (byte '"' :: t) m := by
        have place : m ≤ memberValue (byte '"' :: t) l := by unfold memberValue memberColon at *; omega
        have whole := jsonAt_member u done closed
        rw [if_pos member] at whole
        refine .past (.inl ?_) ?_
        · rw [whole,shifted_next _ _ (jsonValue_moves _)]; omega
        intro l' i j k hit x low _ below
        rw [whole] at hit
        obtain ⟨_,_,_,_,rfl,_,_⟩ := shifted_hit hit
        omega
      cases closed : stringEnd t with
      | none =>
        exact .halt (by simp [jsonAt,closed])
      | some l =>
        have whole := jsonAt_member u done closed
        have short (early : l+1 ≤ m) : stringEnd (t.take (m-1)) = some l := by
          rw [stringEnd_take,closed,filter_some_pos (by simp; omega)]
        cases member : isMember u (byte '"' :: t) l with
        | false =>
          rw [member] at whole
          by_cases early : l+1 ≤ m
          · refine .same ?_
            rw [whole,head,jsonAt_member u done (short early),← head,isMember_take u early,member,Bool.and_false]
            rfl
          · exact .pass whole (Nat.le_of_lt (Nat.lt_of_not_le early))
        | true =>
          by_cases early : l+1 ≤ m ∧ memberColon (byte '"' :: t) l < m ∧ memberValue (byte '"' :: t) l < m
          · obtain ⟨early,before,start⟩ := early
            have cut := jsonAt_member u done (short early)
            rw [← head,isMember_take u early,member,memberValue_take early before,min_eq_left start.le,drop_take] at cut
            simp only [before,decide_true,Bool.and_self,if_true] at cut
            rw [member,if_pos rfl] at whole
            generalize memberValue (byte '"' :: t) l = v at *
            have room : m - v ≤ ((byte '"' :: t).drop v).length := by rw [length_drop]; omega
            rcases jsonValue_take (by omega) room with same | ⟨reaches,covered⟩
            · refine .same ?_; rw [cut,whole,same]
            refine .past (.inl ?_) ?_
            · rw [whole,shifted_next _ _ (jsonValue_moves _)]; omega
            intro l' i j k hit x low high below
            rw [whole] at hit
            obtain ⟨i',j',k',value,rfl,rfl,rfl⟩ := shifted_hit hit
            rcases covered l' i' j' k' value (x-v) (by omega) (by omega) (by omega) with ⟨l'',a,b,e,found,low',high'⟩ | ⟨rfl,rfl,past,null⟩
            · refine .inl ⟨l'',v+a,v+b,v+e,?_,by omega,by omega⟩
              rw [cut,found]
              simp only [shifted]
              rw [if_pos (by omega)]
            · refine .inr (literal (v+0) (v+j') (v+k') (by rw [whole,hit]) (by omega) ?_ x low below)
              exact null
          · exact beyond closed (by omega) member
    · refine .same ?_
      rw [head]
      simp [jsonAt,quote]

theorem headerStart_take (early : colon < m) : headerStart (rest.take m) colon = min (headerStart rest colon) m := by
  unfold headerStart
  rw [drop_take,skipBlank,run_take,skipBlank]
  omega

theorem headerColon_take (u : Tables) (line : GoString) (m : Nat) : headerColon u (line.take m) = (headerColon u line).filter (· < m) := by
  refine Option.ext fun colon => ?_
  have name (early : colon < m) : (line.take m).take colon = line.take colon := by rw [take_take,min_eq_left early.le]
  rw [headerColon,indexByte_take,filter_eq_some_iff,filter_eq_some_iff,filter_eq_some_iff,headerColon,
    filter_eq_some_iff,decide_eq_true_eq]
  constructor
  · rintro ⟨⟨found,early⟩,header⟩
    rw [name early] at header
    exact ⟨⟨found,header⟩,early⟩
  · rintro ⟨⟨found,header⟩,early⟩
    rw [name early]
    exact ⟨⟨found,early⟩,header⟩

theorem headerColon_inside (found : headerColon u line = some colon) : colon < line.length := by
  obtain ⟨a,b,rfl,_,rfl⟩ := indexByte_split.mp (filter_eq_some_iff.mp found).1
  simp

theorem headerAt_cut (u : Tables) (fuel : Nat)
    (carriage : ∀ l i j k, headerAt u done rest = .hit l i j k → ∀ x, i ≤ x → x < j → x+1 = m → rest[x]? = some 13 → lost (done.length + x)) :
    StepCut (headerAt u) lost fuel done rest m := by
  have length := run_take (· != 10) rest m
  generalize stops : run (· != 10) rest = stop at length
  by_cases ends : stop < m
  · -- The line ends before the cut.
    refine .same ?_
    rw [min_eq_left ends.le] at length
    unfold headerAt
    simp only [length,stops,take_take,min_eq_left ends.le]
    cases found : headerColon u (rest.take stop) with
    | none => rfl
    | some colon =>
      have place : colon < stop := lt_of_lt_of_le (headerColon_inside found) (by simp)
      have last : (rest.take m)[stop-1]? = rest[stop-1]? := by rw [getElem?_take,if_pos (by omega)]
      simp only [headerStop,last,headerStart_take (lt_trans place ends)]
      by_cases early : headerStart rest colon < m
      · rw [min_eq_left early.le]; rfl
      · have far : ¬ headerStart rest colon < stop := by omega
        have cutFar : ¬ min (headerStart rest colon) m < stop := by omega
        simp [far,cutFar]
  · refine .past (.inl ?_) ?_
    · unfold headerAt
      simp only [stops]
      (repeat' split) <;> exact show m ≤ stop+1 by omega
    intro l i j k hit x low high below
    have whole := hit
    unfold headerAt at hit
    simp only [stops] at hit
    cases found : headerColon u (rest.take stop) with
    | none => rw [found] at hit; cases hit
    | some colon =>
      rw [found] at hit
      dsimp only at hit
      split at hit
      · cases hit
        have early : colon < m := by unfold headerStart at low; omega
        have cutColon : headerColon u ((rest.take m).take m) = some colon := by
          rw [take_take,min_self,show rest.take m = (rest.take stop).take m by rw [take_take,min_eq_left (by omega)],
            headerColon_take,found,filter_some_pos (by simpa using early)]
        have cut : headerAt u done (rest.take m) = if headerStart rest colon < headerStop (rest.take m) (headerStart rest colon) m then
            .hit Mask (headerStart rest colon) (headerStop (rest.take m) (headerStart rest colon) m) (m+1) else .pass (m+1) := by
          unfold headerAt
          rw [min_eq_right (by omega)] at length
          simp only [length,cutColon,headerStart_take early,min_eq_left (show headerStart rest colon ≤ m by omega)]
        by_cases covered : x < headerStop (rest.take m) (headerStart rest colon) m
        · rw [if_pos (by omega)] at cut; exact .inl ⟨_,_,_,_,cut,low,covered⟩
        -- Only the return that ends the cut line is left out.
        unfold headerStop at covered
        split at covered
        · rename_i trimmed
          rw [Bool.and_eq_true,beq_iff_eq,getElem?_take,if_pos (by omega)] at trimmed
          have last : x = m-1 := by omega
          exact .inr (carriage _ _ _ _ whole x low high (by omega) (last ▸ trimmed.2))
        · omega
      · cases hit

theorem pairValue_take (inside : m ≤ t.length) : ((pairValue t).2 ≤ m → pairValue (t.take m) = pairValue t) ∧
    (m < (pairValue t).2 → ∀ x, (pairValue t).1 ≤ x → x < m → (pairValue (t.take m)).1 ≤ x ∧ x < (pairValue (t.take m)).2) := by
  cases t with
  | nil => rw [le_zero.mp inside]; exact ⟨fun _ => rfl,fun past => absurd past (by decide)⟩
  | cons q t =>
    rcases Nat.eq_zero_or_pos m with rfl | positive
    · refine ⟨fun short => ?_,fun _ x _ below => absurd below (not_lt_zero x)⟩
      unfold pairValue at short ⊢
      dsimp only at short ⊢
      split at short
      · omega
      · rename_i plain
        rw [if_neg plain]
        exact congrArg (Prod.mk 0) (le_zero.mp short).symm
    rw [take_head positive]
    unfold pairValue
    dsimp only
    split
    · have size : (t.take (m-1)).length = m-1 := by
        rw [length_take]
        rw [length_cons] at inside
        omega
      rw [indexByte_take,size]
      rw [length_cons] at inside
      cases indexByte t q with
      | none =>
        simp only [filter_none,getD_none,Prod.mk.injEq,true_and]
        exact ⟨fun _ => by omega,fun _ x _ _ => ⟨by omega,by omega⟩⟩
      | some e =>
        by_cases early : e < m-1
        · rw [filter_some_pos (by simpa using early)]
          simp only [getD_some]
          exact ⟨fun _ => trivial,fun past => by omega⟩
        · rw [filter_some_neg (by simpa using early)]
          simp only [getD_none,getD_some,Prod.mk.injEq,true_and]
          exact ⟨fun _ => by omega,fun _ x _ _ => ⟨by omega,by omega⟩⟩
    · rw [← take_head positive,run_take]
      exact ⟨fun short => by rw [min_eq_left short],fun past x _ below => ⟨zero_le x,by omega⟩⟩

theorem pairAt_cut (u : Tables) (fuel : Nat) (positive : 0 < m) (inside : m ≤ rest.length) :
    StepCut (pairAt u) lost fuel done rest m := by
  cases rest with
  | nil => rw [length_nil] at inside; omega
  | cons c t =>
    have head := take_head (c := c) (t := t) positive
    by_cases pair : c = byte '=' ∧ (nameBefore done == [] || !isCredentialParam u (paramName (nameBefore done))) = false
    · obtain ⟨rfl,named⟩ := pair
      have move (t : GoString) : pairAt u done (byte '=' :: t) =
          if (pairValue t).1 < (pairValue t).2 then .hit Mask ((pairValue t).1+1) ((pairValue t).2+1) ((pairValue t).2+1)
          else .pass ((pairValue t).2+1) := by
        unfold pairAt
        dsimp only
        rw [if_neg (by simp),named,if_neg (by simp)]
      obtain ⟨short,long⟩ := pairValue_take (t := t) (m := m-1) (by rw [length_cons] at inside; omega)
      by_cases ends : (pairValue t).2 ≤ m-1
      · refine .same ?_; rw [head,move,move,short ends]
      have whole := move t
      split at whole
      · refine .hit whole (by omega) fun x low _ below => ?_
        obtain ⟨low',high'⟩ := long (by omega) (x-1) (by omega) (by omega)
        refine .inl ⟨Mask,(pairValue (t.take (m-1))).1+1,(pairValue (t.take (m-1))).2+1,(pairValue (t.take (m-1))).2+1,?_,by omega,by omega⟩
        rw [head,move,if_pos (by omega)]
      · exact .pass whole (by omega)
    · refine .same ?_
      have move (t : GoString) : pairAt u done (c :: t) = .pass 1 := by
        unfold pairAt
        dsimp only
        by_cases equals : c = byte '='
        · rw [if_neg (by simp [equals]),if_pos (Bool.of_not_eq_false fun named => pair ⟨equals,named⟩)]
        · rw [if_pos equals]
      rw [head,move,move]

end Gateon.Security.Redact
