import Gateon.Telemetry.TraceWindow

namespace Gateon.TraceSearch
open Go PagedMerge List

def Trace.time (t : Trace) : Int := traceKeyTime t.key

section
variable (a : Archive)

def Archive.stored : List Trace :=
  match a.store with
  | none => []
  | some s => s.entries.map (Entry.trace a.node)

def Archive.everything : List Trace := a.stored ++ a.nodes.flatMap NodeDir.traces

def Archive.hot : Option Int :=
  match a.store with
  | none => none
  | some s => s.entries.head?.map fun e => hotFloor s.prunedThrough (some (traceKeyTime e.key)) 0

-- The store from its hot floor on, this node's archive before it, the others'.
def Archive.placedFrom (floor : Option Int) : List Trace :=
  (a.stored.filter fun t => floor.all fun f => decide (f ≤ t.time)) ++
    a.nodes.flatMap fun dir => dir.traces.filter fun t => decide (dir.name ≠ a.node) || floor.all fun f => decide (t.time < f)

def Archive.Places (t : Trace) : Prop :=
  (t ∈ a.stored ∧ ∀ f ∈ a.hot, f ≤ t.time) ∨
    ∃ dir ∈ a.nodes, t ∈ dir.traces ∧ (dir.name = a.node → ∀ f ∈ a.hot, t.time < f)

end

theorem mem_placed {a : Archive} : t ∈ a.placedFrom a.hot ↔ a.Places t := by
  have all (p : Int → Prop) [DecidablePred p] : (a.hot.all fun f => decide (p f)) ↔ ∀ f ∈ a.hot, p f := by
    cases a.hot <;> simp
  unfold Archive.placedFrom Archive.Places
  simp only [mem_append,List.mem_filter,mem_flatMap,Bool.or_eq_true,all,decide_eq_true_eq]
  refine or_congr Iff.rfl (exists_congr fun dir => and_congr Iff.rfl (and_congr Iff.rfl ?_))
  constructor
  · intro either same; exact either.resolve_left fun apart => apart same
  intro later
  by_cases same : dir.name = a.node
  · exact .inr (later same)
  · exact .inl same

theorem floor_hot (a : Archive) (now : Int) : a.floor now = a.hot.getD now := by
  unfold Archive.floor Archive.hot
  cases a.store with
  | none => rfl
  | some s => dsimp only; cases s.entries <;> rfl

theorem stored_cold {a : Archive} (cold : a.hot = none) : a.stored = [] := by
  unfold Archive.hot at cold
  unfold Archive.stored
  cases found : a.store with
  | none => rfl
  | some s => simp only [found,Option.map_eq_none_iff,head?_eq_none_iff] at cold; simp [cold]

def Archive.Settled (a : Archive) (now : Int) : Prop :=
  a.hot = none → ∀ dir ∈ a.nodes, dir.name = a.node → ∀ t ∈ dir.traces, t.time < now

theorem placed_floor {a : Archive} (settled : a.Settled now) : a.placedFrom (some (a.floor now)) = a.placedFrom a.hot := by
  rw [floor_hot]
  cases hot : a.hot with
  | some f => rfl
  | none =>
    unfold Archive.placedFrom
    rw [stored_cold hot]
    congr 1
    apply flatMap_congr
    intro dir member
    apply filter_congr
    intro t held
    by_cases own : dir.name = a.node
    · simp [own,settled hot dir member own t held]
    · simp [own]

theorem stored_keyed {a : Archive} (held : t ∈ a.stored) : ∃ s, Keyed t.key s := by
  unfold Archive.stored at held
  cases found : a.store with
  | none => simp [found] at held
  | some store =>
    rw [found] at held
    obtain ⟨e,member,rfl⟩ := List.mem_map.mp held
    exact store.keyed e member

theorem everything_keyed {a : Archive} (held : t ∈ a.everything) : ∃ s, Keyed t.key s := by
  rcases mem_append.mp held with stored | archived
  · exact stored_keyed stored
  · obtain ⟨dir,_,inDir⟩ := mem_flatMap.mp archived; exact dir.time inDir

theorem placed_sublist (a : Archive) (floor : Option Int) : (a.placedFrom floor).Sublist a.everything := by
  apply List.Sublist.append
  · exact filter_sublist
  · exact List.Sublist.flatMap_right _ fun dir _ => filter_sublist

section
variable {q : Query} {a : Archive} {after : Option GoString} {need : GoString → Nat}

def Query.span (q : Query) : Span := ⟨q.from_,q.to_,!q.oldestFirst⟩

theorem refusal_dated (valid : q.refusal = none) : Dated q.from_ ∧ Dated q.to_ := by
  unfold Query.refusal at valid
  split at valid
  · cases valid
  split at valid
  · cases valid
  · unfold latestTime at *
    unfold Dated
    omega

theorem laterOf_le (a b t : Int) : laterOf a b ≤ t ↔ a ≤ t ∧ b ≤ t := by
  unfold laterOf
  split <;> omega

theorem lt_earlierOf (a b t : Int) : t < earlierOf a b ↔ t < a ∧ t < b := by
  unfold earlierOf
  split <;> omega

theorem late_dated (start : Dated q.from_) (stop : Dated q.to_) (period : laterOf q.from_ floor < q.to_) :
    Span.Dated ⟨laterOf q.from_ floor,q.to_,!q.oldestFirst⟩ :=
  ⟨start.between stop ((laterOf_le ..).mp le_rfl).1 period.le,stop⟩

theorem live_remaining (store : Store) (node : GoString) (start : Dated q.from_) (stop : Dated q.to_) (floor : Int) :
    ((if laterOf q.from_ floor < q.to_ then [Source.store (store.iter node ⟨laterOf q.from_ floor,q.to_,!q.oldestFirst⟩ after)] else []).flatMap
      Source.remaining).Perm (((store.entries.map (Entry.trace node)).filter fun t => decide (floor ≤ t.time)).filter (wanted q.span after)) := by
  have both : ∀ t, (wanted q.span after t && decide (floor ≤ t.time)) = wanted ⟨laterOf q.from_ floor,q.to_,!q.oldestFirst⟩ after t := by
    intro t
    rw [Bool.eq_iff_iff,Bool.and_eq_true,wanted_iff,wanted_iff,decide_eq_true_eq]
    simp only [Query.span,Trace.time,laterOf_le]
    exact ⟨fun h => ⟨⟨⟨h.1.1.1,h.2⟩,h.1.1.2⟩,h.1.2⟩,fun h => ⟨⟨⟨h.1.1.1,h.1.2⟩,h.2⟩,h.1.1.2⟩⟩
  simp only [List.filter_filter,both]
  split
  · next period =>
    simp only [flatMap_cons,flatMap_nil,append_nil,Source.remaining]
    rw [store.iter_eq node (late_dated start stop period)]
    exact inOrder_perm _ _
  · next empty =>
    rw [wanted_empty empty]
    exact List.Perm.nil

def Query.readTo (q : Query) (a : Archive) (floor : Int) (dir : NodeDir) : Int :=
  if dir.name = a.node then earlierOf q.to_ floor else q.to_

theorem node_remaining (dir : NodeDir) (start : Dated q.from_) (stop : Dated q.to_) (cursor : KeyCursor after) (floor : Int) :
    (((newArchiveSource dir ⟨q.from_,q.readTo a floor dir,!q.oldestFirst⟩ after).map Source.archive).toList.flatMap Source.remaining).Perm
      ((dir.traces.filter fun t => decide (dir.name ≠ a.node) || decide (t.time < floor)).filter (wanted q.span after)) := by
  have bound : q.from_ < q.readTo a floor dir → Dated (q.readTo a floor dir) := by
    intro period
    refine start.between stop period.le ?_
    unfold Query.readTo earlierOf
    split
    · split <;> omega
    · omega
  have both : ∀ t, (wanted q.span after t && (decide (dir.name ≠ a.node) || decide (t.time < floor))) =
      wanted ⟨q.from_,q.readTo a floor dir,!q.oldestFirst⟩ after t := by
    intro t
    rw [Bool.eq_iff_iff,Bool.and_eq_true,Bool.or_eq_true,wanted_iff,wanted_iff,decide_eq_true_eq,decide_eq_true_eq]
    simp only [Query.span,Query.readTo,Trace.time]
    by_cases own : dir.name = a.node
    · simp only [own,ne_eq,not_true_eq_false,false_or,↓reduceIte,lt_earlierOf]
      exact ⟨fun h => ⟨⟨h.1.1.1,h.1.1.2,h.2⟩,h.1.2⟩,fun h => ⟨⟨⟨h.1.1,h.1.2.1⟩,h.2⟩,h.1.2.2⟩⟩
    · simp [own]
  simp only [List.filter_filter,both]
  exact newArchiveSource_remaining dir _ start bound cursor

theorem sources_remaining (valid : q.refusal = none) (cursor : KeyCursor after) (floor : Int) :
    ((q.sources a floor after).flatMap Source.remaining).Perm ((a.placedFrom (some floor)).filter (wanted q.span after)) := by
  obtain ⟨start,stop⟩ := refusal_dated valid
  unfold Query.sources Archive.placedFrom
  rw [flatMap_append,filter_append]
  apply List.Perm.append
  · unfold Archive.stored
    cases a.store with
    | none => exact List.Perm.nil
    | some s => exact live_remaining s a.node start stop floor
  · rw [filter_flatMap,filterMap_eq_flatMap_toList,flatMap_assoc]
    apply List.Perm.flatMap_left
    intro dir _
    exact node_remaining dir start stop cursor floor

def Archive.Readable (a : Archive) (need : GoString → Nat) : Prop := ∀ dir ∈ a.nodes, ∀ file ∈ dir.files, file.Readable (need dir.name)

theorem sources_good (valid : q.refusal = none) (readable : a.Readable need) (floor : Int) :
    ∀ s ∈ q.sources a floor after, s.Good need (!q.oldestFirst) ∧ s.held = 0 := by
  obtain ⟨start,stop⟩ := refusal_dated valid
  intro s member
  rcases mem_append.mp member with live | archived
  · cases found : a.store with
    | none => simp [found] at live
    | some store =>
      simp only [found] at live
      split at live
      · next period =>
        rw [mem_singleton.mp live,store.iter_eq a.node (late_dated start stop period)]
        refine ⟨inOrder_sorted _ ?_,rfl⟩
        apply List.Pairwise.filter
        rw [pairwise_map]
        exact store.sorted
      · cases live
  · obtain ⟨dir,inNodes,made⟩ := mem_filterMap.mp archived
    obtain ⟨source,built,rfl⟩ := Option.map_eq_some_iff.mp made
    have sorted := newArchiveSource_sorted built
    obtain ⟨window,node,held,frames,segs,_⟩ := newArchiveSource_unread built
    refine ⟨⟨⟨?_,?_,?_⟩,?_,sorted⟩,held⟩
    · rw [frames]; simp
    · intro file inSegs
      rw [segs,mem_inOrder] at inSegs
      rw [node]
      exact readable dir inNodes file (mem_of_mem_filter inSegs)
    · rw [held]; exact Int.natCast_nonneg _
    · rw [window,newKeyWindow_desc]

theorem sources_cap (q : Query) (a : Archive) (after : Option GoString) (need : GoString → Nat) (floor : Int) :
    ((q.sources a floor after).map fun s => s.cap need).sum ≤ (a.nodes.map fun dir => (need dir.name : Int)).sum := by
  have archives : ∀ (span : NodeDir → Span) (nodes : List NodeDir),
      ((nodes.filterMap fun dir => (newArchiveSource dir (span dir) after).map Source.archive).map fun s => s.cap need).sum ≤
        (nodes.map fun dir => (need dir.name : Int)).sum := by
    intro span nodes
    induction nodes with
    | nil => exact Int.le_refl 0
    | cons dir rest ih =>
      cases made : newArchiveSource dir (span dir) after with
      | none => rw [filterMap_cons_none (by rw [made]; rfl),map_cons,sum_cons]; omega
      | some s =>
        have node : s.node = dir.name := (newArchiveSource_unread made).2.1
        have one : (Source.archive s).cap need = need dir.name := by rw [← node,Source.cap]
        rw [filterMap_cons_some (by rw [made]; rfl)]
        simp only [map_cons,sum_cons,one]
        omega
  unfold Query.sources
  rw [map_append,sum_append]
  have live : ∀ l : List Source, (∀ s ∈ l, ∃ rest, s = .store rest) → (l.map fun s => s.cap need).sum = 0 := by
    intro l stores
    apply sum_eq_zero
    intro x member
    obtain ⟨s,inL,rfl⟩ := List.mem_map.mp member
    obtain ⟨rest,rfl⟩ := stores s inL
    rfl
  rw [live]
  · rw [Int.zero_add]; exact archives _ a.nodes
  intro s member
  cases found : a.store with
  | none => simp [found] at member
  | some store =>
    simp only [found] at member
    split at member
    · exact ⟨_,mem_singleton.mp member⟩
    · cases member

theorem decodeCursor_key (keyed : Keyed key t) (short : key.length ≤ maxCursorLen) :
    base64Encode key ≠ [] ∧ decodeCursor (base64Encode key) = .ok (some key) := by
  obtain ⟨_,id,rfl⟩ := keyed
  have length : (appendTraceKey t id).length = 9+id.length := by
    rw [appendTraceKey,length_append,length_putUint,length_cons]
    omega
  have colon : (appendTraceKey t id).getD 8 0 = byte ':' := by
    rw [appendTraceKey,getD_eq_getElem?_getD,getElem?_append_right (by simp),length_putUint]
    rfl
  have nonempty : base64Encode (appendTraceKey t id) ≠ [] := by
    intro empty
    rw [base64Encode_empty.mp empty,length_nil] at length
    omega
  have accepted : ¬ ((appendTraceKey t id).length < 9 ∨ (appendTraceKey t id).length > maxCursorLen ∨ (appendTraceKey t id).getD 8 0 ≠ byte ':') := by
    simp only [colon,ne_eq,not_true_eq_false,or_false]
    omega
  exact ⟨nonempty,by rw [decodeCursor,if_neg nonempty,base64_roundtrip]; exact if_neg accepted⟩

theorem past_trans (beyond : past desc after t.key) (first : comesFirst desc t x) : past desc after x.key := by
  cases after with
  | none => rfl
  | some c => exact comesFirst_trans (a := ⟨c,none,0,[]⟩) beyond first

theorem past_later {desc : Bool} {l front later : List Trace} {t : Trace} (sorted : Ranked desc l)
    (part : (l.filter fun x => past desc after x.key) = front ++ t :: later) : (l.filter fun x => past desc (some t.key) x.key) = later := by
  have inner : Ranked desc (front ++ t :: later) := by
    rw [← part]
    exact sorted.filter _
  obtain ⟨_,tail,across⟩ := pairwise_append.mp inner
  have beyond : past desc after t.key := by
    have member : t ∈ l.filter fun x => past desc after x.key := by simp [part]
    exact (List.mem_filter.mp member).2
  have twice : (l.filter fun x => past desc (some t.key) x.key) = (l.filter fun x => past desc after x.key).filter fun x => comesFirst desc t x := by
    rw [List.filter_filter]
    apply filter_congr
    intro x _
    rw [Bool.eq_iff_iff,Bool.and_eq_true]
    exact ⟨fun first => ⟨first,past_trans beyond first⟩,fun both => both.1⟩
  have before : (front.filter fun x => comesFirst desc t x) = [] := by
    rw [filter_eq_nil_iff]
    intro x member
    rw [comesFirst_asymm (across x member t mem_cons_self)]
    simp
  have self : comesFirst desc t t = false := by
    rw [← Bool.not_eq_true]
    exact fun first => comesFirst_key first rfl
  have rest : (later.filter fun x => comesFirst desc t x) = later := by
    rw [filter_eq_self]
    intro x member
    exact rel_of_pairwise_cons tail member
  rw [twice,part,filter_append,before,filter_cons,self,rest]
  rfl

theorem exists_sorted (desc : Bool) (l : List Trace) (distinct : (l.map Trace.key).Nodup) :
    ∃ sorted : List Trace, sorted.Perm l ∧ Ranked desc sorted := by
  have order := @pairwise_mergeSort Trace (fun a b => !comesFirst desc b a)
    (fun a b c one two => by
      simp only [Bool.not_eq_true'] at one two ⊢
      exact notFirst_trans one two)
    (fun a b => by
      cases first : comesFirst desc b a with
      | false => rfl
      | true => simp [comesFirst_asymm first]) l
  have perm := mergeSort_perm l fun a b => !comesFirst desc b a
  refine ⟨_,perm,?_⟩
  have keys := (perm.map Trace.key).nodup_iff.mpr distinct
  rw [List.Nodup,pairwise_map] at keys
  apply (order.and keys).imp
  intro a b both
  simp only [Bool.not_eq_true'] at both
  exact comesFirst_total both.2 both.1

def Query.Stands (q : Query) (total : List Trace) (c : GoString) (rest : List Trace) : Prop :=
  ∃ after, decodeCursor c = .ok after ∧ KeyCursor after ∧ rest = total.filter fun t => past (!q.oldestFirst) after t.key
def Query.shows (q : Query) (u : Tables) (r : Result) (taken : List Trace) : Prop := r.traces = taken.filterMap (q.filter.compile.found u)

section
variable {total : List Trace} (whole : total.Perm ((a.placedFrom a.hot).filter (wanted q.span none)))
include whole

theorem total_everything (held : t ∈ total) : t ∈ a.everything :=
  (placed_sublist a a.hot).subset (mem_of_mem_filter (whole.subset held))

theorem cursor_accepted (short : ∀ t ∈ a.everything, t.key.length ≤ 9+storedIDBytes) (held : t ∈ total.filter p) :
    base64Encode t.key ≠ [] ∧ decodeCursor (base64Encode t.key) = .ok (some t.key) := by
  have member := total_everything whole (mem_of_mem_filter held)
  obtain ⟨s,keyed⟩ := everything_keyed member
  apply decodeCursor_key keyed
  have bound := short t member
  unfold storedIDBytes maxTraceIDBytes at bound
  unfold maxCursorLen
  omega

end

def Query.capped (q : Query) : Query := { q with limit := min (cmpOr q.limit defaultQueryLimit) maxQueryLimit }

section
variable (u : Tables) {total : List Trace} (valid : q.refusal = none) (readable : a.Readable need)
    (room : (a.nodes.map fun dir => (need dir.name : Int)).sum ≤ q.ceiling) (settled : a.Settled now)
    (sorted : Ranked (!q.oldestFirst) total)
    (whole : total.Perm ((a.placedFrom a.hot).filter (wanted q.span none)))
include valid readable room settled sorted whole

theorem search_page (decoded : decodeCursor c = .ok after) (cursor : KeyCursor after) :
    search u a now { q with cursor := c } =
      .ok (examine u q.capped.collector (total.filter fun t => past (!q.oldestFirst) after t.key)).result := by
  have accepted : Query.refusal { q with cursor := c } = none := valid
  have normal : Query.normalize { q with cursor := c } = .ok ({ q.capped with cursor := c },after) := by
    rw [Query.normalize,accepted,decoded]
    rfl
  have split : wanted q.span after = fun t => past (!q.oldestFirst) after t.key && wanted q.span none t := by
    funext t
    rw [Bool.eq_iff_iff,Bool.and_eq_true,wanted_iff,wanted_iff]
    simp only [past,Query.span,and_true]
    exact and_comm
  have same : (total.filter fun t => past (!q.oldestFirst) after t.key).Perm
      (((q.sources a (a.floor now) after).flatMap Source.remaining)) := by
    apply List.Perm.trans _ (sources_remaining valid cursor (a.floor now)).symm
    rw [placed_floor settled]
    rw [split,← List.filter_filter]
    exact whole.filter _
  have merged := merge_examine u (q.sources a (a.floor now) after) (sources_good valid readable (a.floor now))
    ((sources_cap q a after need (a.floor now)).trans room) (sorted.filter _) same q.capped.collector
  rw [search,normal]
  have applied : merge u (Query.sources { q.capped with cursor := c } a (a.floor now) after) (!q.capped.oldestFirst)
      ⟨0,Query.ceiling { q.capped with cursor := c }⟩ (Query.collector { q.capped with cursor := c }) = _ := merged
  dsimp only at applied ⊢
  rw [applied]

theorem call_shown (short : ∀ t ∈ a.everything, t.key.length ≤ 9+storedIDBytes) (stands : q.Stands total c rest) :
    ∃ r next taken later, search u a now { q with cursor := c } = .ok r ∧
      (if r.nextCursor = [] then none else some r.nextCursor) = next ∧ Shown (q.Stands total) (q.shows u) rest r next taken later := by
  obtain ⟨after,decoded,cursor,rfl⟩ := stands
  have page := search_page u valid readable room settled sorted whole decoded cursor
  obtain ⟨taken,later,parts,out,ended,stopped⟩ :=
    examine_parts u q.capped.collector rfl (total.filter fun t => past (!q.oldestFirst) after t.key)
  revert page out ended stopped
  generalize examine u q.capped.collector (total.filter fun t => past (!q.oldestFirst) after t.key) = last
  intro page out ended stopped
  cases going : last.done with
  | false => exact ⟨_,_,taken,later,page,rfl,parts,out,fun _ => ended going,fun c' moved => by simp [Collector.result,going] at moved⟩
  | true =>
    obtain ⟨front,t,rfl,key⟩ := stopped going
    have member : t ∈ total.filter fun t => past (!q.oldestFirst) after t.key := by simp [parts]
    obtain ⟨nonempty,accepted⟩ := cursor_accepted whole short member
    refine ⟨_,_,_,later,page,rfl,parts,out,?_,?_⟩
    · intro none_; exact absurd none_ (by simp [Collector.result,going,key,nonempty])
    intro c' moved
    simp only [Collector.result,going,↓reduceIte,key,nonempty,Option.some.injEq] at moved
    subst moved
    refine ⟨by simp,some t.key,accepted,?_,?_⟩
    · intro k same
      cases same
      exact everything_keyed (total_everything whole (mem_of_mem_filter member))
    · rw [append_assoc] at parts; exact (past_later sorted parts).symm

end

-- A status class, a method in any case, a text within one of five fields.
def TraceRecord.fields (rec : TraceRecord) : List GoString := [rec.path,rec.id,rec.sourceIP,rec.serviceName,rec.operationName]

structure Filter.Matches (u : Tables) (f : Filter) (rec : TraceRecord) : Prop where
  status : f.status ≠ [] → rec.status.length = 3 ∧
    rec.status.headD 0 ∈ (if f.status = lit "errors" then [byte '4',byte '5'] else [f.status.headD 0])
  method : f.method ≠ [] → equalFold u f.method rec.method
  text : ∃ field ∈ rec.fields, lowerASCII f.text <:+: lowerASCII field

theorem within_class (b : UInt8) (close : hi.toNat = lo.toNat ∨ hi.toNat = lo.toNat+1) : ¬ (b < lo ∨ hi < b) ↔ b = lo ∨ b = hi := by
  simp only [UInt8.lt_iff_toNat_lt,← UInt8.toNat_inj]
  omega

variable (u : Tables)

theorem matches_parts (f : CompiledFilter) (rec : TraceRecord) : f.matches_ u rec ↔
    (f.statusLo ≠ 0 → rec.status.length = 3 ∧ ¬ (rec.status.headD 0 < f.statusLo ∨ f.statusHi < rec.status.headD 0)) ∧
      (f.method ≠ [] → equalFold u f.method rec.method) ∧ ∃ field ∈ rec.fields, f.text <:+: lowerASCII field := by
  have texts : (∃ field ∈ rec.fields, f.text <:+: lowerASCII field) ↔
      f.text = [] ∨ (rec.fields.any fun field => contains (lowerASCII field) f.text) := by
    simp only [List.any_eq_true,contains_iff]
    constructor
    · exact .inr
    · rintro (empty | found)
      · exact ⟨rec.path,mem_cons_self,by rw [empty]; exact nil_infix⟩
      · exact found
  rw [texts]
  unfold CompiledFilter.matches_ TraceRecord.fields
  split
  · next refused =>
    simp only [Bool.false_eq_true,false_iff]
    intro all
    obtain ⟨length,inside⟩ := all.1 refused.1
    exact refused.2.elim (fun wrong => wrong length) inside
  next status =>
  have classed : f.statusLo ≠ 0 → rec.status.length = 3 ∧ ¬ (rec.status.headD 0 < f.statusLo ∨ f.statusHi < rec.status.headD 0) := by
    intro asked
    have fine := not_or.mp fun out => status ⟨asked,out⟩
    exact ⟨not_not.mp fine.1,fine.2⟩
  split
  · next refused =>
    simp only [Bool.false_eq_true,false_iff]
    intro all
    rw [all.2.1 refused.1] at refused
    cases refused.2
  · next method =>
    have fits : f.method ≠ [] → equalFold u f.method rec.method := by
      intro asked
      by_contra no
      exact method ⟨asked,Bool.eq_false_iff.mpr no⟩
    split
    · next empty => exact ⟨fun _ => ⟨classed,fits,.inl empty⟩,fun _ => rfl⟩
    · next asked => exact ⟨fun found => ⟨classed,fits,.inr found⟩,fun all => all.2.2.resolve_left asked⟩

theorem compile_matches {f : Filter} (known : f.status ∈ statuses) (rec : TraceRecord) :
    f.compile.matches_ u rec ↔ f.Matches u rec := by
  have parts : f.compile.method = f.method ∧ f.compile.text = lowerASCII f.text := by
    unfold Filter.compile
    split
    · exact ⟨rfl,rfl⟩
    · split <;> exact ⟨rfl,rfl⟩
  have status : (f.compile.statusLo ≠ 0 → rec.status.length = 3 ∧ ¬ (rec.status.headD 0 < f.compile.statusLo ∨ f.compile.statusHi < rec.status.headD 0)) ↔
      (f.status ≠ [] → rec.status.length = 3 ∧
        rec.status.headD 0 ∈ (if f.status = lit "errors" then [byte '4',byte '5'] else [f.status.headD 0])) := by
    unfold Filter.compile
    by_cases errors : f.status = lit "errors"
    · have asked : f.status ≠ [] := by rw [errors]; decide
      have set_ : byte '4' ≠ 0 := by decide
      simp only [errors,↓reduceIte,ne_eq,set_,not_false_eq_true,forall_const,mem_cons,not_mem_nil,or_false]
      rw [within_class _ (.inr (by decide))]
      simp only [show lit "errors" ≠ [] by decide,not_false_eq_true,forall_const]
    by_cases classed : f.status ∈ [lit "2xx",lit "3xx",lit "4xx",lit "5xx"]
    · have asked : f.status ≠ [] ∧ f.status.headD 0 ≠ 0 := by
        revert classed
        generalize f.status = given
        revert given
        decide
      simp only [errors,classed,↓reduceIte,asked.1,asked.2,ne_eq,not_false_eq_true,forall_const,mem_cons,not_mem_nil,or_false]
      rw [within_class _ (.inl rfl),or_self]
    · have empty : f.status = [] := by
        have either : f.status ∈ [] :: [lit "2xx",lit "3xx",lit "4xx",lit "5xx"] ++ [lit "errors"] := known
        have listed := (mem_append.mp either).resolve_right (mt mem_singleton.mp errors)
        exact (mem_cons.mp listed).resolve_right classed
      rw [if_neg errors,if_neg classed,empty]
      simp
  rw [matches_parts,parts.1,parts.2,status]
  exact ⟨fun h => ⟨h.1,h.2.1,h.2.2⟩,fun h => ⟨h.status,h.method,h.text⟩⟩

def Trace.found (t : Trace) : Option Found := t.record.map fun rec => ⟨rec,t.node⟩

theorem found_matches {f : Filter} (known : f.status ∈ statuses) (t : Trace) :
    (f.compile.found u t).isSome ↔ ∃ rec, t.record = some rec ∧ f.Matches u rec := by
  unfold CompiledFilter.found
  cases t.record with
  | none => simp
  | some rec =>
    simp only [Option.some.injEq,exists_eq_left',← compile_matches u known]
    cases f.compile.matches_ u rec <;> simp

theorem filterMap_found (f : CompiledFilter) (l : List Trace) :
    (l.filter fun t => (f.found u t).isSome).filterMap Trace.found = l.filterMap (f.found u) := by
  rw [filterMap_filter]
  apply filterMap_congr
  intro t _
  unfold CompiledFilter.found Trace.found
  cases t.record with
  | none => rfl
  | some rec => cases matched : f.matches_ u rec <;> simp [matched]

theorem refusal_status (valid : q.refusal = none) : q.filter.status ∈ statuses := by
  by_contra unknown
  unfold Query.refusal at valid
  split at valid
  · cases valid
  · split at valid
    · cases valid
    · split at valid <;> cases valid

theorem pages_exact (a : Archive) (clock : Nat → Int) (q : Query) (need : GoString → Nat) (first : q.cursor = [])
    (valid : q.refusal = none) (distinct : (a.everything.map Trace.key).Nodup) (short : ∀ t ∈ a.everything, t.key.length ≤ 9+storedIDBytes)
    (readable : a.Readable need) (room : (a.nodes.map fun dir => (need dir.name : Int)).sum ≤ q.ceiling) (settled : ∀ i, a.Settled (clock i)) :
    ∃ (fuel : Nat) (results : List Result) (traces : List Trace), pages u a clock q fuel = some results ∧ results.flatMap Result.traces = traces.filterMap Trace.found ∧
      (traces.Pairwise fun s t => comesFirst (!q.oldestFirst) s t = true) ∧
      ∀ t, t ∈ traces ↔ a.Places t ∧ (q.from_ ≤ t.time ∧ t.time < q.to_) ∧ ∃ rec, t.record = some rec ∧ q.filter.Matches u rec := by
  have keys : (((a.placedFrom a.hot).filter (wanted q.span none)).map Trace.key).Nodup :=
    distinct.sublist ((filter_sublist.trans (placed_sublist a a.hot)).map _)
  obtain ⟨total,whole,sorted⟩ := exists_sorted (!q.oldestFirst) _ keys
  have stands : q.Stands total q.cursor total := by
    refine ⟨none,?_,?_,?_⟩
    · rw [first]; rfl
    · nofun
    · simp [past]
  have each : ∀ i c rest, q.Stands total c rest → ∃ page next taken later,
      answered (search u a (clock i) { q with cursor := c }) = some (page,next) ∧
      Shown (q.Stands total) (q.shows u) rest page next taken later := by
    intro i c rest before
    obtain ⟨r,next,taken,later,called,cursor,part⟩ := call_shown u valid readable room (settled i) sorted whole short before
    refine ⟨r,next,taken,later,?_,part⟩
    rw [called,answered,← cursor]
  obtain ⟨results,parts,followed,flat,shown⟩ := follow_whole each (total.length+1) 0 q.cursor total (Nat.lt_succ_self _) stands
  have joined : results.flatMap Result.traces = parts.flatten.filterMap (q.filter.compile.found u) := by
    clear flat followed
    induction shown with
    | nil => rfl
    | cons one _ ih => rw [flatMap_cons,flatten_cons,filterMap_append,ih,one]
  refine ⟨total.length+1,results,total.filter fun t => (q.filter.compile.found u t).isSome,followed,?_,sorted.filter _,?_⟩
  · rw [filterMap_found,joined,flat]
  intro t
  rw [List.mem_filter,whole.mem_iff,List.mem_filter,mem_placed,wanted_iff,found_matches u (refusal_status valid)]
  simp only [past,and_true]
  exact and_assoc

end

def sampleRecord (t : Int) : TraceRecord := ⟨t,lit "a",lit "200",lit "GET",lit "/",lit "10.0.0.1",[],[]⟩

def sampleFile (t : Nat) (early : t < 3600000000000) : SegmentFile where
  start := 0
  opened := some [⟨t,t,10,some 20,some [⟨5,some (sampleRecord t)⟩]⟩]
  dated := by decide
  laid := by
    intro frames opened
    cases opened
    have low : (0 : Int) ≤ t := Int.natCast_nonneg t
    have high : (t : Int) < 0+hour := by unfold hour minute second; omega
    refine ⟨pairwise_singleton _ _,?_,?_,pairwise_singleton _ _⟩
    · intro f member
      rw [mem_singleton.mp member]
      exact ⟨low,le_rfl,high⟩
    · intro f member line inLines rec given
      rw [mem_singleton.mp member] at inLines ⊢
      rw [mem_singleton.mp inLines] at given
      cases given
      exact ⟨le_rfl,le_rfl⟩

def sampleEntry (t : Int) : Entry := ⟨appendTraceKey t (lit "a"),7,some (sampleRecord t)⟩
def sampleQuery : Query := ⟨0,1000,1,[],false,⟨lit "2xx",lit "get",[]⟩,0,0⟩

-- The store was pruned through 100, and a trace that started at 99 was written after that.
def lateArchive : Archive where
  store := some {
    entries := [sampleEntry 99,sampleEntry 101]
    prunedThrough := 100
    keyed := by
      intro e member
      simp only [mem_cons,not_mem_nil,or_false] at member
      rcases member with rfl | rfl
      · exact ⟨99,by unfold Dated; omega,lit "a",rfl⟩
      · exact ⟨101,by unfold Dated; omega,lit "a",rfl⟩
    sorted := by decide }
  nodes := []
  node := lit "n"

-- It is below the hot floor, and no page shows it.
theorem late_trace_missed :
    (pages Tables.ascii lateArchive (fun _ => 5000) sampleQuery 3).map (fun results => results.flatMap Result.traces) =
      some [⟨sampleRecord 101,lit "n"⟩] ∧
    lateArchive.everything.map Trace.record = [some (sampleRecord 99),some (sampleRecord 101)] ∧
    (lateArchive.everything.map Trace.key).Nodup ∧ sampleQuery.filter.compile.matches_ Tables.ascii (sampleRecord 99) = true := by
  decide +kernel

def sampleArchive : Archive where
  store := some {
    entries := [sampleEntry 500]
    prunedThrough := 300
    keyed := by
      intro e member
      rw [mem_singleton.mp member]
      exact ⟨500,by unfold Dated; omega,lit "a",rfl⟩
    sorted := pairwise_singleton _ _ }
  nodes := [⟨lit "m",[sampleFile 600 (by decide)],pairwise_singleton _ _⟩,⟨lit "n",[sampleFile 200 (by decide)],pairwise_singleton _ _⟩]
  node := lit "n"

theorem sampleArchive_readable : sampleArchive.Readable fun _ => 62 := by
  have file : ∀ t early, (sampleFile t early).Readable 62 := by
    intro t early frames opened
    cases opened
    refine ⟨by simp [indexSize,indexEntrySize],?_⟩
    intro f member
    rw [mem_singleton.mp member]
    exact ⟨20,_,rfl,rfl,by simp [indexSize,indexEntrySize,Frame.takes]⟩
  intro dir inNodes f inFiles
  simp only [sampleArchive,mem_cons,not_mem_nil,or_false] at inNodes
  rcases inNodes with rfl | rfl <;> rw [mem_singleton.mp inFiles] <;> exact file _ _

theorem pages_exact_three :
    ∃ (fuel : Nat) (results : List Result) (traces : List Trace), pages Tables.ascii sampleArchive (fun _ => 5000) sampleQuery fuel = some results ∧
      results.flatMap Result.traces = traces.filterMap Trace.found ∧ (traces.Pairwise fun s t => comesFirst true s t = true) ∧
      ∀ t, t ∈ traces ↔ sampleArchive.Places t ∧ (0 ≤ t.time ∧ t.time < 1000) ∧
        ∃ rec, t.record = some rec ∧ sampleQuery.filter.Matches Tables.ascii rec :=
  pages_exact Tables.ascii sampleArchive (fun _ => 5000) sampleQuery (fun _ => 62) rfl (by decide +kernel) (by decide +kernel) (by decide +kernel)
    sampleArchive_readable (by decide) fun _ cold => absurd cold (by decide +kernel)

end Gateon.TraceSearch
