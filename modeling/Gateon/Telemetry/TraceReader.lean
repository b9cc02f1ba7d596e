import Gateon.Go.Encoding
import Gateon.Go.Time
import Mathlib.Tactic.NormNum
import Gateon.Go.Unicode
import Gateon.Lib.PagedMerge

namespace Gateon.TraceSearch
open Go PagedMerge List Nat

def uint64 (t : Int) : Nat := (t % 2^64).toNat
def int64 (n : Nat) : Int := (n : Int).bmod (2^64)
def appendTraceKey (ts : Int) (id : GoString) : GoString := putUint 8 (uint64 ts) ++ byte ':' :: id
def traceKeyTime (key : GoString) : Int := if key.length < 8 then zeroTime else int64 (getUint (key.take 8))
def timePrefix (t : Int) : GoString := putUint 8 (uint64 t)
def timeKeyPrefix (t : Int) : GoString := putUint 8 (uint64 (max t 0))

-- The times keys are in order for: from the epoch on, as an int64 holds them.
def Dated (t : Int) : Prop := 0 ≤ t ∧ t < 2^63

def Keyed (key : GoString) (t : Int) : Prop := Dated t ∧ ∃ id, key = appendTraceKey t id

theorem Dated.between (low : Dated a) (high : Dated b) (after : a ≤ t) (before : t ≤ b) : Dated t :=
  ⟨low.1.trans after,before.trans_lt high.2⟩

theorem Dated.uint64_eq (dated : Dated t) : uint64 t = t.toNat := by
  have high := dated.2
  have small : t < 2^64 := by omega
  rw [uint64,Int.emod_eq_of_lt dated.1 small]

theorem Dated.int64_eq (dated : Dated t) : int64 t.toNat = t := by
  have positive := dated.1
  have half : ((2^64 : Nat) : Int)/2 = 2^63 := by norm_num
  have half' : (((2^64 : Nat) : Int)+1)/2 = 2^63 := by norm_num
  unfold int64
  simp only [Int.toNat_of_nonneg positive]
  apply Int.bmod_eq_of_le
  · rw [half]; omega
  · rw [half']; exact dated.2

theorem digit_lt {p q r s d : Nat} (left : r < d) (right : s < d) : r+d*p < s+d*q ↔ p < q ∨ (p = q ∧ r < s) := by
  rcases lt_trichotomy p q with less | same | more
  · have wide : d*(p+1) ≤ d*q := mul_le_mul_left d less
    rw [mul_add,mul_one] at wide
    omega
  · subst same
    omega
  have wide : d*(q+1) ≤ d*p := mul_le_mul_left d more
  rw [mul_add,mul_one] at wide
  constructor
  · intro less; omega
  · rintro (less | ⟨same,_⟩) <;> omega

theorem putUint_lt (k m n : Nat) : putUint k m < putUint k n ↔ m%256^k < n%256^k := by
  induction k with
  | zero => simp [putUint,mod_one]
  | succ k ih =>
    have some_left : m%256^k < 256^k := Nat.mod_lt m (Nat.pow_pos (by decide))
    have some_right : n%256^k < 256^k := Nat.mod_lt n (Nat.pow_pos (by decide))
    have left : (UInt8.ofNat (m/256^k)).toNat = m/256^k%256 := rfl
    have right : (UInt8.ofNat (n/256^k)).toNat = n/256^k%256 := rfl
    rw [putUint,putUint,cons_lt_cons_iff,ih,UInt8.lt_iff_toNat_lt,← UInt8.toNat_inj,left,right,
      pow_succ,mod_mul,mod_mul,digit_lt some_left some_right]

theorem putUint_inj (m n : Nat) (left : m < 256^k) (right : n < 256^k) (same : putUint k m = putUint k n) : m = n := by
  have read := congrArg getUint same
  rwa [getUint_putUint,getUint_putUint,mod_eq_of_lt left,mod_eq_of_lt right] at read

theorem append_lt {a b x y : GoString} (same : a.length = b.length) : a ++ x < b ++ y ↔ a < b ∨ (a = b ∧ x < y) := by
  induction a generalizing b with
  | nil => have empty : b = [] := eq_nil_of_length_eq_zero same.symm; simp [empty]
  | cons c a ih =>
    cases b with
    | nil => cases same
    | cons d b =>
      rw [cons_append,cons_append,cons_lt_cons_iff,cons_lt_cons_iff,ih (succ.inj same),List.cons.injEq]
      tauto

theorem lt_of_lt_of_not_lt {a b c : GoString} (less : a < b) (above : ¬ c < b) : a < c := by
  by_contra notLess
  have most : c ≤ a := List.not_lt.mp notLess
  exact above (List.lt_of_le_of_lt most less)

theorem append_zero_lt {x y : GoString} : y < x ++ [0] ↔ ¬ x < y := by
  induction x generalizing y with
  | nil =>
    cases y with
    | nil => simp
    | cons b y => have least : ¬ b < 0 := UInt8.not_lt_zero; simp [cons_lt_cons_iff,least]
  | cons a x ih =>
    cases y with
    | nil => simp
    | cons b y =>
      rw [cons_append,cons_lt_cons_iff,cons_lt_cons_iff,ih]
      simp only [UInt8.lt_iff_toNat_lt,← UInt8.toNat_inj]
      by_cases less : x < y <;> simp only [less,and_true,and_false,not_true_eq_false,not_false_eq_true,or_false] <;> omega

theorem prefix_lt (one : Dated s) (two : Dated t) : putUint 8 (uint64 s) < putUint 8 (uint64 t) ↔ s < t := by
  have big : (256:Nat)^8 = 2^64 := by decide
  obtain ⟨low,high⟩ := one
  obtain ⟨low',high'⟩ := two
  rw [putUint_lt,Dated.uint64_eq ⟨low,high⟩,Dated.uint64_eq ⟨low',high'⟩,mod_eq_of_lt (by omega),mod_eq_of_lt (by omega)]
  omega

theorem prefix_inj (one : Dated s) (two : Dated t) (same : putUint 8 (uint64 s) = putUint 8 (uint64 t)) : s = t := by
  have big : (256:Nat)^8 = 2^64 := by decide
  rw [one.uint64_eq,two.uint64_eq] at same
  have left := one.2
  have right := two.2
  have numbers := putUint_inj s.toNat t.toNat (by omega) (by omega) same
  have low := one.1
  have low' := two.1
  omega

theorem Keyed.lt_prefix (keyed : Keyed key s) (dated : Dated t) : key < timePrefix t ↔ s < t := by
  obtain ⟨started,id,rfl⟩ := keyed
  have alone : timePrefix t = timePrefix t ++ [] := (append_nil _).symm
  rw [alone,appendTraceKey,timePrefix,append_lt (by simp),prefix_lt started dated]
  simp

theorem Keyed.time_le (one : Keyed a s) (two : Keyed b t) (less : a < b) : s ≤ t := by
  obtain ⟨started,x,rfl⟩ := one
  obtain ⟨started',y,rfl⟩ := two
  rw [appendTraceKey,appendTraceKey,append_lt (by simp),prefix_lt started started'] at less
  rcases less with earlier | ⟨same,_⟩
  · exact earlier.le
  · exact (prefix_inj started started' same).le

theorem prefix_time (dated : Dated t) (more : GoString) : traceKeyTime (timePrefix t ++ more) = t := by
  have big : (256:Nat)^8 = 2^64 := by decide
  have high := dated.2
  have long : ¬ (timePrefix t ++ more).length < 8 := by rw [length_append,timePrefix,length_putUint]; omega
  have first : (timePrefix t ++ more).take 8 = timePrefix t := take_left' (length_putUint 8 _)
  rw [traceKeyTime,if_neg long,first,timePrefix,getUint_putUint,dated.uint64_eq,mod_eq_of_lt (by omega),dated.int64_eq]

theorem Keyed.time (keyed : Keyed key t) : traceKeyTime key = t := by
  obtain ⟨dated,id,rfl⟩ := keyed
  exact prefix_time dated (byte ':' :: id)

theorem Keyed.earlier (one : Keyed a s) (two : Keyed b t) (less : s < t) : a < b := by
  obtain ⟨started,x,rfl⟩ := one
  obtain ⟨started',y,rfl⟩ := two
  rw [appendTraceKey,appendTraceKey,append_lt (by simp),prefix_lt started started']
  exact .inl less

structure TraceRecord where
  timestamp : Int
  id : GoString
  status : GoString
  method : GoString
  path : GoString
  sourceIP : GoString
  serviceName : GoString
  operationName : GoString
  deriving DecidableEq

structure Trace where
  key : GoString
  record : Option TraceRecord
  size : Nat
  node : GoString
  deriving DecidableEq

-- A line of a segment, and a frame of lines with its index entry.
structure Line where
  size : Nat
  record : Option TraceRecord

structure Frame where
  first : Int
  last : Int
  length : Nat
  claims : Option Nat
  lines : Option (List Line)

def Line.trace (node : GoString) (line : Line) : Option Trace :=
  if line.size = 0 then none else line.record.map fun rec => ⟨appendTraceKey rec.timestamp rec.id,some rec,line.size,node⟩
def Frame.traces (node : GoString) (frame : Frame) : List Trace := (frame.lines.getD []).filterMap (Line.trace node)
def Frame.keys (frame : Frame) : List GoString := (frame.traces []).map Trace.key

-- What framesTile has checked of an hour's index, and how the writer lays out the lines.
structure Laid (start : Int) (frames : List Frame) : Prop where
  tiled : frames.Pairwise fun f g => f.last ≤ g.first
  inside : ∀ f ∈ frames, start ≤ f.first ∧ f.first ≤ f.last ∧ f.last < start+hour
  bracketed : ∀ f ∈ frames, ∀ line ∈ f.lines.getD [], ∀ rec ∈ line.record, f.first ≤ rec.timestamp ∧ rec.timestamp ≤ f.last
  sorted : (frames.flatMap Frame.keys).Pairwise (· < ·)

structure SegmentFile where
  start : Int
  opened : Option (List Frame)
  dated : 0 ≤ start ∧ start+hour < 2^63
  laid : ∀ frames, opened = some frames → Laid start frames

structure NodeDir where
  name : GoString
  files : List SegmentFile
  ordered : files.Pairwise fun f g => f.start+hour ≤ g.start

def SegmentFile.traces (node : GoString) (file : SegmentFile) : List Trace := (file.opened.getD []).flatMap (Frame.traces node)
def NodeDir.traces (dir : NodeDir) : List Trace := dir.files.flatMap (SegmentFile.traces dir.name)
def comesFirst (desc : Bool) (a b : Trace) : Bool := if desc then decide (b.key < a.key) else decide (a.key < b.key)
abbrev Ranked (desc : Bool) (l : List Trace) : Prop := l.Pairwise fun a b => comesFirst desc a b
def inOrder (desc : Bool) (l : List α) : List α := if desc then l.reverse else l

structure Span where
  from_ : Int
  to_ : Int
  desc : Bool

structure KeyWindow where
  lo : GoString
  hi : GoString
  desc : Bool

def newKeyWindow (sp : Span) (after : Option GoString) : KeyWindow :=
  let w : KeyWindow := ⟨timePrefix sp.from_,timePrefix sp.to_,sp.desc⟩
  match after with
  | none => w
  | some after =>
    if sp.desc ∧ after < w.hi then { w with hi := after }
    else if sp.desc = false ∧ ¬ after < w.lo then { w with lo := after ++ [0] }
    else w

inductive Placement where
  | inWindow
  | beforeWindow
  | pastWindow

section
variable (w : KeyWindow)

def KeyWindow.place (key : GoString) : Placement :=
  let below := decide (key < w.lo)
  let above := !decide (key < w.hi)
  if !below && !above then .inWindow
  else if w.desc = above then .beforeWindow
  else .pastWindow

def KeyWindow.from_ : Int := traceKeyTime w.lo
def KeyWindow.until_ : Int := traceKeyTime w.hi + 1

-- Frames are in time order, so each sort.Search finds the first of its bound.
def frameRange (frames : List Frame) : List Frame :=
  let a := frames.findIdx fun f => w.from_ ≤ f.last
  let b := frames.findIdx fun f => w.until_ ≤ f.first
  (frames.take (max a b)).drop a

-- The directories above an hour's file cover the hour.
def listSegments (files : List SegmentFile) : List SegmentFile :=
  files.filter fun file => decide (file.start < w.until_) && decide (w.from_ < file.start+hour)

end

structure Holdings where
  n : Int
  limit : Int

def Holdings.resize (h : Holdings) (held now : Int) : Option Holdings :=
  if now > held ∧ h.n-held+now > h.limit then none else some { h with n := h.n+(now-held) }
def Holdings.release (h : Holdings) (held : Int) : Holdings := { h with n := h.n-held }
def indexEntrySize : Int := 32

-- Files, frames and lines still to read, in scan order, and what is held.
structure ArchiveSource where
  node : GoString
  w : KeyWindow
  segs : List SegmentFile
  frames : List Frame
  lines : List Line
  held : Int
  idx : Int

inductive Taken where
  | found (t : Trace) (lines : List Line)
  | past
  | ended

section
variable (w : KeyWindow)

def takeLines (node : GoString) : List Line → Taken
  | [] => .ended
  | line :: rest =>
    match line.trace node with
    | none => takeLines node rest
    | some t =>
      match w.place t.key with
      | .inWindow => .found t rest
      | .pastWindow => .past
      | .beforeWindow => takeLines node rest

inductive FrameStep where
  | tooLarge
  | found (hold : Holdings) (held : Int) (t : Trace) (lines : List Line) (frames : List Frame)
  | past (hold : Holdings)
  | finished (hold : Holdings)

def Frame.takes (frame : Frame) (size : Nat) : Int := (size : Int)+frame.length

def readFrames (node : GoString) (idx : Int) : Holdings → Int → List Frame → FrameStep
  | hold,held,[] => .finished (hold.release held)
  | hold,held,frame :: rest =>
    match frame.claims with
    | none => .finished (hold.release held)
    | some size =>
      match hold.resize held (idx+frame.takes size) with
      | none => .tooLarge
      | some hold =>
        match frame.lines with
        | none => .finished (hold.release (idx+frame.takes size))
        | some lines =>
          match takeLines w node (inOrder w.desc lines) with
          | .found t left => .found hold (idx+frame.takes size) t left rest
          | .past => .past (hold.release (idx+frame.takes size))
          | .ended => readFrames node idx hold (idx+frame.takes size) rest

inductive SearchError where
  | period
  | range
  | length
  | status
  | filter
  | cursor
  | tooLarge (node : GoString)
  deriving DecidableEq

abbrev Moved (S : Type) := Except SearchError (Holdings × Option (Trace × S))

variable (node : GoString)

def afterFrames (idx : Int) (segs : List SegmentFile) (next : Holdings → Moved ArchiveSource) :
    FrameStep → Moved ArchiveSource
  | .tooLarge => .error (.tooLarge node)
  | .found hold held t lines frames => .ok (hold,some (t,⟨node,w,segs,frames,lines,held,idx⟩))
  | .past hold => .ok (hold,none)
  | .finished hold => next hold

def readFiles : Holdings → List SegmentFile → Moved ArchiveSource
  | hold,[] => .ok (hold,none)
  | hold,file :: rest =>
    match file.opened with
    | none => readFiles hold rest
    | some frames =>
      let idx := (frames.length : Int)*indexEntrySize
      match hold.resize 0 idx with
      | none => .error (.tooLarge node)
      | some hold =>
        afterFrames w node idx rest (fun hold => readFiles hold rest)
          (readFrames w node idx hold idx (inOrder w.desc (frameRange w frames)))

def ArchiveSource.advance (s : ArchiveSource) (hold : Holdings) : Moved ArchiveSource :=
  match takeLines s.w s.node s.lines with
  | .found t lines => .ok (hold,some (t,{ s with lines := lines }))
  | .past => .ok (hold.release s.held,none)
  | .ended =>
    afterFrames s.w s.node s.idx s.segs (fun hold => readFiles s.w s.node hold s.segs)
      (readFrames s.w s.node s.idx hold s.held s.frames)

def Frame.scanned (frame : Frame) : List Trace := inOrder w.desc (frame.traces node)
def SegmentFile.scanned (file : SegmentFile) : List Trace :=
  (inOrder w.desc (frameRange w (file.opened.getD []))).flatMap (Frame.scanned w node)

end

def ArchiveSource.unread (s : ArchiveSource) : List Trace :=
  s.lines.filterMap (Line.trace s.node) ++
    (s.frames.flatMap (Frame.scanned s.w s.node) ++ s.segs.flatMap (SegmentFile.scanned s.w s.node))

inductive Source where
  | store (rest : List Trace)
  | archive (s : ArchiveSource)

def Source.advance : Source → Holdings → Moved Source
  | .store [],hold => .ok (hold,none)
  | .store (t :: rest),hold => .ok (hold,some (t,.store rest))
  | .archive s,hold =>
    match s.advance hold with
    | .error e => .error e
    | .ok (hold,none) => .ok (hold,none)
    | .ok (hold,some (t,s)) => .ok (hold,some (t,.archive s))

def Source.unread : Source → List Trace
  | .store rest => rest
  | .archive s => s.unread

def defaultQueryLimit : Int := 100
def maxQueryLimit : Int := 500
def scanBudget : Int := 200000
def scanByteBudget : Nat := 256*2^20
def maxQuerySpan : Int := 400*24*hour
def maxCursorLen : Nat := 1024
def maxFilterLen : Nat := 256
def maxSearchHeld : Int := 64*2^20

def latestTime : Int := 7258118400000000000

-- A byte that is not UTF-8 turns into the three of U+FFFD.
def maxTraceIDBytes : Nat := 128
def storedIDBytes : Nat := 3*maxTraceIDBytes

structure Filter where
  status : GoString
  method : GoString
  text : GoString

structure Query where
  from_ : Int
  to_ : Int
  limit : Int
  cursor : GoString
  oldestFirst : Bool
  filter : Filter
  budget : Int
  holdLimit : Int

structure Found where
  record : TraceRecord
  node : GoString
  deriving DecidableEq

structure Result where
  traces : List Found
  nextCursor : GoString
  partial_ : Bool
  scannedTo : Int
  deriving DecidableEq

def cmpOr (v fallback : Int) : Int := if v > 0 then v else fallback
def tooLong (s : GoString) : Bool := decide (s.length > 4*maxFilterLen) || decide (runeCount s > maxFilterLen)

def decodeCursor (cursor : GoString) : Except SearchError (Option GoString) :=
  if cursor = [] then .ok none
  else match base64Decode cursor with
    | none => .error .cursor
    | some key => if key.length < 9 ∨ key.length > maxCursorLen ∨ key.getD 8 0 ≠ byte ':' then .error .cursor else .ok (some key)

def statuses : List GoString := [[],lit "2xx",lit "3xx",lit "4xx",lit "5xx",lit "errors"]

section
variable (q : Query)

def Query.refusal : Option SearchError :=
  if q.from_ = zeroTime ∨ q.to_ = zeroTime ∨ ¬ q.from_ < q.to_ then some .period
  else if q.from_ < 0 ∨ q.to_ > latestTime then some .range
  else if q.to_-q.from_ > maxQuerySpan then some .length
  else if q.filter.status ∉ statuses then some .status
  else if tooLong q.filter.method ∨ tooLong q.filter.text then some .filter
  else none

def Query.normalize : Except SearchError (Query × Option GoString) :=
  match q.refusal with
  | some e => .error e
  | none =>
    match decodeCursor q.cursor with
    | .error e => .error e
    | .ok after => .ok ({ q with limit := min (cmpOr q.limit defaultQueryLimit) maxQueryLimit },after)

structure CompiledFilter where
  statusLo : UInt8
  statusHi : UInt8
  method : GoString
  text : GoString

def lowerASCII (s : GoString) : GoString := s.map lowerByte

def Filter.compile (f : Filter) : CompiledFilter :=
  if f.status = lit "errors" then ⟨byte '4',byte '5',f.method,lowerASCII f.text⟩
  else if f.status ∈ [lit "2xx",lit "3xx",lit "4xx",lit "5xx"] then ⟨f.status.headD 0,f.status.headD 0,f.method,lowerASCII f.text⟩
  else ⟨0,0,f.method,lowerASCII f.text⟩

section
variable (u : Tables)

def CompiledFilter.matches_ (f : CompiledFilter) (tr : TraceRecord) : Bool :=
  if f.statusLo ≠ 0 ∧ (tr.status.length ≠ 3 ∨ tr.status.headD 0 < f.statusLo ∨ f.statusHi < tr.status.headD 0) then false
  else if f.method ≠ [] ∧ equalFold u f.method tr.method = false then false
  else if f.text = [] then true
  else [tr.path,tr.id,tr.sourceIP,tr.serviceName,tr.operationName].any fun field => contains (lowerASCII field) f.text

structure Collector where
  limit : Int
  budget : Int
  filter : CompiledFilter
  out : List Found
  scanned : Nat
  scannedBytes : Nat
  last : GoString
  done : Bool
  partial_ : Bool

def CompiledFilter.found (f : CompiledFilter) (t : Trace) : Option Found :=
  match t.record with
  | none => none
  | some rec => if f.matches_ u rec then some ⟨rec,t.node⟩ else none

def Collector.offer (c : Collector) (t : Trace) : Collector :=
  let out := c.out ++ (c.filter.found u t).toList
  let scanned := c.scanned+1
  let scannedBytes := c.scannedBytes+t.size
  let full := decide (c.limit ≤ out.length)
  let spent := decide (c.budget ≤ scanned) || decide (scanByteBudget ≤ scannedBytes)
  { c with
    out := out
    scanned := scanned
    scannedBytes := scannedBytes
    last := t.key
    done := c.done || full || spent
    partial_ := c.partial_ || (!full && spent) }

def Collector.result (c : Collector) : Result where
  traces := c.out
  nextCursor := if c.done then base64Encode c.last else []
  partial_ := c.partial_
  scannedTo := if c.last = [] then zeroTime else traceKeyTime c.last

structure Entry where
  key : GoString
  size : Nat
  record : Option TraceRecord

def Entry.trace (node : GoString) (e : Entry) : Trace := ⟨e.key,e.record,e.size,node⟩

structure Store where
  entries : List Entry
  prunedThrough : Int
  keyed : ∀ e ∈ entries, ∃ t, Keyed e.key t
  sorted : entries.Pairwise fun a b => a.key < b.key

def hotFloor (prunedThrough : Int) (oldest : Option Int) (now : Int) : Int :=
  match oldest with
  | none => now
  | some oldest => if oldest ≤ prunedThrough then prunedThrough else oldest

-- The store if it is open, the node directories, and this node's name.
structure Archive where
  store : Option Store
  nodes : List NodeDir
  node : GoString

def Archive.floor (a : Archive) (now : Int) : Int :=
  match a.store with
  | none => now
  | some s => hotFloor s.prunedThrough (s.entries.head?.map fun e => traceKeyTime e.key) now

def iterOptions (sp : Span) (after : Option GoString) : GoString × GoString :=
  let lower := timeKeyPrefix sp.from_
  let upper := timeKeyPrefix sp.to_
  match after with
  | none => (lower,upper)
  | some after =>
    if sp.desc then (lower,if after < upper then after else upper)
    else (if lower < after ++ [0] then after ++ [0] else lower,upper)

def Store.iter (s : Store) (node : GoString) (sp : Span) (after : Option GoString) : List Trace :=
  let bounds := iterOptions sp after
  if bounds.1 < bounds.2 then
    inOrder sp.desc ((s.entries.filter fun e => !decide (e.key < bounds.1) && decide (e.key < bounds.2)).map (Entry.trace node))
  else []

def newArchiveSource (dir : NodeDir) (sp : Span) (after : Option GoString) : Option ArchiveSource :=
  if sp.from_ < sp.to_ then
    let w := newKeyWindow sp after
    if w.lo < w.hi then
      let segs := listSegments w dir.files
      if segs = [] then none else some ⟨dir.name,w,inOrder sp.desc segs,[],[],0,0⟩
    else none
  else none

def laterOf (a b : Int) : Int := if a > b then a else b
def earlierOf (a b : Int) : Int := if a < b then a else b

def Query.sources (a : Archive) (floor : Int) (after : Option GoString) : List Source :=
  let desc := !q.oldestFirst
  let live := match a.store with
    | none => []
    | some s =>
      let from_ := laterOf q.from_ floor
      if from_ < q.to_ then [Source.store (s.iter a.node ⟨from_,q.to_,desc⟩ after)] else []
  live ++ a.nodes.filterMap fun dir =>
    let to_ := if dir.name = a.node then earlierOf q.to_ floor else q.to_
    (newArchiveSource dir ⟨q.from_,to_,desc⟩ after).map Source.archive

def startAll : List Source → Holdings → Except SearchError (Holdings × List (Trace × Source))
  | [],hold => .ok (hold,[])
  | s :: rest,hold =>
    match s.advance hold with
    | .error e => .error e
    | .ok (hold,moved) =>
      match startAll rest hold with
      | .error e => .error e
      | .ok (hold,items) => .ok (hold,moved.toList ++ items)

def mergeLoop (desc : Bool) : Nat → List (Trace × Source) → Holdings → Collector → Except SearchError Collector
  | 0,_,_,c => .ok c
  | fuel+1,items,hold,c =>
    match pick (comesFirst desc) items with
    | none => .ok c
    | some ((t,s),others) =>
      let c := c.offer u t
      if c.done then .ok c
      else match s.advance hold with
        | .error e => .error e
        | .ok (hold,moved) => mergeLoop desc fuel (moved.toList ++ others) hold c

-- One turn of the loop for each trace there is, and one to see that there are no more.
def mergeFuel (srcs : List Source) : Nat := (srcs.flatMap Source.unread).length+1

def merge (srcs : List Source) (desc : Bool) (hold : Holdings) (c : Collector) : Except SearchError Collector :=
  match startAll srcs hold with
  | .error e => .error e
  | .ok (hold,items) => mergeLoop u desc (mergeFuel srcs) items hold c

end

def Query.collector : Collector :=
  ⟨q.limit,cmpOr q.budget scanBudget,q.filter.compile,[],0,0,[],false,false⟩
def Query.ceiling : Int := if q.holdLimit ≠ 0 then q.holdLimit else maxSearchHeld

end

def search (u : Tables) (a : Archive) (now : Int) (q : Query) : Except SearchError Result :=
  match q.normalize with
  | .error e => .error e
  | .ok (q,after) =>
    let srcs := q.sources a (a.floor now) after
    match merge u srcs (!q.oldestFirst) ⟨0,q.ceiling⟩ q.collector with
    | .error e => .error e
    | .ok c => .ok c.result

def answered : Except SearchError Result → Option (Result × Option GoString)
  | .error _ => none
  | .ok r => some (r,if r.nextCursor = [] then none else some r.nextCursor)

-- A caller that asks again with each page's NextCursor, at the times its clock gives.
def pages (u : Tables) (a : Archive) (clock : Nat → Int) (q : Query) (fuel : Nat) : Option (List Result) :=
  follow (fun i cursor => answered (search u a (clock i) { q with cursor := cursor })) fuel 0 q.cursor

end Gateon.TraceSearch
