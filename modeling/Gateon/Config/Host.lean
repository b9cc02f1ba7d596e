import Gateon.Go.Unicode

namespace Gateon.Config
open Go List

def stripRootLabel (h : GoString) : GoString :=
  if 1 < h.length ∧ h.getLast? = some (byte '.') then h.dropLast else h
def normalizeHost (u : Tables) (h : GoString) : GoString := toLower u (stripRootLabel h)
def routeHostIsExact (u : Tables) (routeHost : GoString) : Bool :=
  routeHost != [] && !hasPrefix (toLower u routeHost) (lit "*.")

-- The port goes first, then the brackets, then the root label of both sides.
def stripMatchPort (qh : GoString) : GoString :=
  match lastIndexByte qh (byte ':') with
  | some i => if hasSuffix qh (lit "]") then qh else qh.take i
  | none => qh

def stripBrackets (qh : GoString) : GoString :=
  if 1 < qh.length ∧ qh.head? = some (byte '[') ∧ qh.getLast? = some (byte ']') then
    (qh.drop 1).dropLast
  else qh

def hostMatches (u : Tables) (rh qh : GoString) : Bool :=
  if rh = [] then true else
  let qh := stripRootLabel (stripBrackets (stripMatchPort qh))
  let rh := stripRootLabel rh
  if !hasPrefix rh (lit "*.") then equalFold u qh rh
  else if qh.length < rh.length - 1 then false
  else
    let suffix := rh.drop 1
    equalFold u (qh.drop (qh.length - suffix.length)) suffix

-- net.SplitHostPort, none where it answers an error.
def splitHostPort (hostport : GoString) : Option (GoString × GoString) :=
  match lastIndexByte hostport (byte ':') with
  | none => none
  | some i =>
    let finish (host : GoString) (j k : Nat) : Option (GoString × GoString) :=
      if (indexByte (hostport.drop j) (byte '[')).isSome then none
      else if (indexByte (hostport.drop k) (byte ']')).isSome then none
      else some (host,hostport.drop (i+1))
    if hostport.head? = some (byte '[') then
      match indexByte hostport (byte ']') with
      | none => none
      | some stop =>
        if stop+1 = hostport.length then none
        else if stop+1 = i then finish ((hostport.take stop).drop 1) 1 (stop+1)
        else none
    else
      let host := hostport.take i
      if (indexByte host (byte ':')).isSome then none else finish host 0 0

-- httputil.StripPort. The two bracketed branches of the source answer alike.
def stripPort (host : GoString) : GoString :=
  if host = [] then host else
  match lastIndexByte host (byte ':') with
  | none => host
  | some last =>
    let bracketed := if hasPrefix host (lit "[") then indexByte host (byte ']') else none
    match bracketed with
    | some stop => (host.take stop).drop 1
    | none =>
      if count host (lit ":") = 1 then host.take last else
      match splitHostPort host with
      | some (h,_) => h
      | none =>
        if hasPrefix host (lit "[") && hasSuffix host (lit "]") then (host.drop 1).dropLast else host

-- A request's authority: a name or an IPv4 address, or an IPv6 literal in brackets.
structure Authority where
  bracketed : Bool
  host : GoString
  port : Option GoString

def Authority.text (a : Authority) : GoString :=
  (if a.bracketed then byte '[' :: a.host ++ [byte ']'] else a.host) ++ (a.port.map (byte ':' :: ·)).getD []

structure Authority.Valid (a : Authority) : Prop where
  host : ∀ b ∈ a.host, b ≠ byte '[' ∧ b ≠ byte ']'
  port : ∀ p, a.port = some p → byte ':' ∉ p ∧ byte ']' ∉ p
  literal : a.bracketed ↔ byte ':' ∈ a.host
  plain : a.host.head? ≠ some (byte '*') ∨ a.bracketed = false

theorem hasSuffix_byte (s : GoString) (c : UInt8) : hasSuffix s [c] ↔ s.getLast? = some c := by
  rw [hasSuffix,isSuffixOf_iff_suffix,getLast?_eq_some_iff]
  exact ⟨fun ⟨x,same⟩ => ⟨x,same.symm⟩,fun ⟨x,same⟩ => ⟨x,same.symm⟩⟩

theorem starts_inside (starts : hasPrefix (h ++ byte ':' :: t) (c :: rest)) (apart : c ≠ byte ':') : h.head? = some c := by
  cases h with
  | nil => exact absurd (cons_prefix_cons.mp ( isPrefixOf_iff_prefix.mp starts)).1 apart
  | cons b h => exact congrArg some (cons_prefix_cons.mp ( isPrefixOf_iff_prefix.mp starts)).1.symm

theorem stripMatchPort_port (colon : byte ':' ∉ p) (closing : byte ']' ∉ p) (h : GoString) : stripMatchPort (h ++ byte ':' :: p) = h := by
  have ends : hasSuffix (h ++ byte ':' :: p) (lit "]") = false := by
    apply Bool.eq_false_iff.mpr
    intro ends
    have last := (hasSuffix_byte _ _).mp ends
    rw [getLast?_append_of_ne_nil _ (by simp)] at last
    rcases mem_cons.mp (List.mem_of_getLast? last) with same | inside
    · cases same
    · exact closing inside
  rw [stripMatchPort,lastIndexByte_found colon]
  simp [ends]

theorem stripMatchPort_bare (missing : byte ':' ∉ h ∨ hasSuffix h (lit "]")) : stripMatchPort h = h := by
  unfold stripMatchPort
  rcases missing with none | ends
  · rw [lastIndexByte_none.mpr none]
  · cases lastIndexByte h (byte ':') <;> simp [ends]

theorem stripBrackets_closed (h : GoString) : stripBrackets (byte '[' :: h ++ [byte ']']) = h := by
  rw [stripBrackets,if_pos ⟨by simp,rfl,getLast?_concat⟩]
  exact dropLast_concat

theorem stripBrackets_plain (missing : byte '[' ∉ h) : stripBrackets h = h := by
  unfold stripBrackets
  split
  · rename_i shape; exact absurd (List.mem_of_head? shape.2.1) missing
  · rfl

theorem stripRootLabel_colon (pre post : GoString) : ∃ post', stripRootLabel (pre ++ byte ':' :: post) = pre ++ byte ':' :: post' := by
  unfold stripRootLabel
  split
  · rename_i dotted
    have filled : post ≠ [] := by
      rintro rfl
      simp at dotted
      cases dotted.2
    exact ⟨post.dropLast,by rw [dropLast_append_of_ne_nil (by simp),dropLast_cons_of_ne_nil filled]⟩
  · exact ⟨post,rfl⟩

theorem stripRootLabel_runes (h : GoString) : (runes (stripRootLabel h)).length ≤ (runes h).length := by
  unfold stripRootLabel
  split
  · rename_i dotted
    obtain ⟨x,rfl⟩ := getLast?_eq_some_iff.mp dotted.2
    rw [dropLast_concat,runes_ascii (by decide)]
    simp
  · exact le_rfl

section
variable {a : Authority} (valid : a.Valid)
include valid

theorem stripPort_text : stripPort a.text = a.host := by
  unfold stripPort
  cases shape : a.bracketed with
  | true =>
    have text : a.text = byte '[' :: a.host ++ byte ']' :: (a.port.map (byte ':' :: ·)).getD [] := by simp [Authority.text,shape]
    have colon : byte ':' ∈ a.text := by simp [text,valid.literal.mp shape]
    obtain ⟨last,found⟩ := Option.ne_none_iff_exists'.mp (mt lastIndexByte_none.mp (not_not.mpr colon))
    have stop : indexByte a.text (byte ']') = some (byte '[' :: a.host).length := by
      refine indexByte_split.mpr ⟨_,_,text,?_,rfl⟩
      intro mem
      rcases mem_cons.mp mem with same | inside
      · cases same
      · exact (valid.host _ inside).2 rfl
    have opens : hasPrefix a.text (lit "[") := by rw [text]; rfl
    rw [if_neg (ne_nil_of_mem colon),found]
    simp only [opens,stop,if_true]
    rw [text,take_left]
    rfl
  | false =>
    have free : byte ':' ∉ a.host := fun colon => absurd (valid.literal.mpr colon) (by rw [shape]; nofun)
    cases given : a.port with
    | none =>
      have text : a.text = a.host := by simp [Authority.text,shape,given]
      rw [text,lastIndexByte_none.mpr free]
      exact ite_self _
    | some p =>
      have text : a.text = a.host ++ byte ':' :: p := by simp [Authority.text,shape,given]
      have opens : hasPrefix a.text (lit "[") = false := by
        apply Bool.eq_false_iff.mpr
        intro starts
        rw [text] at starts
        exact (valid.host _ (List.mem_of_head? (starts_inside starts (by decide)))).1 rfl
      have once : count a.text (lit ":") = 1 := by
        rw [text,show lit ":" = [byte ':'] from rfl,count_byte,count_append,count_cons_self,
          count_eq_zero_of_not_mem free,count_eq_zero_of_not_mem (valid.port p given).1]
      rw [if_neg (by simp [text])]
      simp only [opens,once]
      rw [text,lastIndexByte_found (valid.port p given).1]
      exact take_left

theorem bare_text : stripBrackets (stripMatchPort a.text) = a.host := by
  have port : stripMatchPort a.text = if a.bracketed then byte '[' :: a.host ++ [byte ']'] else a.host := by
    cases given : a.port with
    | some p =>
      rw [Authority.text,given]
      exact stripMatchPort_port (valid.port p given).1 (valid.port p given).2 _
    | none =>
      have text : a.text = if a.bracketed then byte '[' :: a.host ++ [byte ']'] else a.host := by
        rw [Authority.text,given]
        exact List.append_nil _
      rw [text]
      apply stripMatchPort_bare
      cases shape : a.bracketed with
      | true => exact .inr ((hasSuffix_byte _ _).mpr getLast?_concat)
      | false => exact .inl fun colon => absurd (valid.literal.mpr colon) (by rw [shape]; nofun)
  rw [port]
  split
  · exact stripBrackets_closed a.host
  · exact stripBrackets_plain fun mem => (valid.host _ mem).1 rfl
end

theorem match_stripped (u : Tables) (a : Authority) (valid : a.Valid) :
    (∀ rh, hostMatches u rh (stripPort a.text) = hostMatches u rh a.text) ↔ a.bracketed = false := by
  have bare : stripBrackets a.host = a.host := stripBrackets_plain fun mem => (valid.host _ mem).1 rfl
  constructor
  · intro agree
    by_contra literal
    have colon := valid.literal.mp (Bool.not_eq_false _ ▸ literal)
    have wild : a.host.head? ≠ some (byte '*') := valid.plain.resolve_right literal
    -- The host without its last group is shorter than the host.
    obtain ⟨post,pre,whole,free⟩ := eq_append_cons_of_mem (mem_reverse.mpr colon)
    have shape : a.host = pre.reverse ++ byte ':' :: post.reverse := by simpa using congrArg List.reverse whole
    have within : ∀ b ∈ a.host, b ≠ byte '[' ∧ b ≠ byte ']' := valid.host
    rw [shape] at wild within
    have cut : stripBrackets (stripMatchPort a.host) = pre.reverse := by
      rw [shape,stripMatchPort_port (by simpa using free) fun mem => (within _ (by simp_all)).2 rfl]
      exact stripBrackets_plain fun mem => (within _ (by simp_all)).1 rfl
    obtain ⟨rest,root⟩ := stripRootLabel_colon pre.reverse post.reverse
    have exact' : hasPrefix (pre.reverse ++ byte ':' :: rest) (lit "*.") = false := by
      apply Bool.eq_false_iff.mpr
      intro starts
      have first := starts_inside starts (by decide)
      exact wild (by rw [head?_append,first]; rfl)
    have same := agree a.host
    unfold hostMatches at same
    rw [stripPort_text valid,bare_text valid,if_neg (ne_nil_of_mem colon),if_neg (ne_nil_of_mem colon),cut,shape,root] at same
    simp only [exact'] at same
    have fold : equalFold u (stripRootLabel pre.reverse) (pre.reverse ++ byte ':' :: rest) = true := same.trans (beq_self_eq_true _)
    have runes' := congrArg List.length (beq_iff_eq.mp fold)
    rw [length_map,length_map,runes_ascii (by decide),length_append,length_cons] at runes'
    have fewer := stripRootLabel_runes pre.reverse
    omega
  · intro named rh
    have free : byte ':' ∉ a.host := fun colon => absurd (valid.literal.mpr colon) (by rw [named]; nofun)
    rw [stripPort_text valid]
    unfold hostMatches
    rw [bare_text valid,stripMatchPort_bare (.inl free),bare]

theorem match_stripped_named : (Authority.mk false (lit "api.example.com") (some (lit "443"))).Valid ∧
    ∀ rh, hostMatches .ascii rh (stripPort (lit "api.example.com:443")) = hostMatches .ascii rh (lit "api.example.com:443") := by
  have valid : (Authority.mk false (lit "api.example.com") (some (lit "443"))).Valid :=
    ⟨by decide +kernel,by rintro p ⟨rfl⟩; decide +kernel,by decide +kernel,.inr rfl⟩
  have text : (Authority.mk false (lit "api.example.com") (some (lit "443"))).text = lit "api.example.com:443" := by decide +kernel
  exact ⟨valid,text ▸ (match_stripped .ascii _ valid).mpr rfl⟩

-- The address without its brackets loses what follows its last colon.
theorem literal_stripped_twice : hostMatches .ascii (lit "::1") (lit "[::1]:8080") = true ∧
    stripPort (lit "[::1]:8080") = lit "::1" ∧ hostMatches .ascii (lit "::1") (lit "::1") = false := by
  decide +kernel

end Gateon.Config
