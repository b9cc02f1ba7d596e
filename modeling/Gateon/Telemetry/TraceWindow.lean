import Gateon.Telemetry.TraceReader
import Mathlib.Data.List.Flatten
import Mathlib.Algebra.Order.BigOperators.Group.List

namespace Gateon.TraceSearch
open Go PagedMerge
open Option hiding filter_map
open List hiding lt_trans all after

def KeyWindow.has (w : KeyWindow) (key : GoString) : Bool := !decide (key < w.lo) && decide (key < w.hi)

def past (desc : Bool) : Option GoString → GoString → Bool
  | none,_ => true
  | some cursor,key => if desc then decide (key < cursor) else decide (cursor < key)

theorem has_iff {w : KeyWindow} : w.has key ↔ ¬ key < w.lo ∧ key < w.hi := by
  simp [KeyWindow.has]

theorem place_inWindow {w : KeyWindow} : w.place key = .inWindow ↔ w.has key := by
  unfold KeyWindow.place KeyWindow.has
  by_cases below : key < w.lo <;> by_cases above : key < w.hi <;> simp [below,above] <;> split <;> simp

theorem place_out {w : KeyWindow} (placed : w.place key = place) (other : place ≠ .inWindow) : w.has key = false := by
  rw [← Bool.not_eq_true,← place_inWindow,placed]
  exact other

theorem place_past {w : KeyWindow} {a b : Trace} (gone : w.place a.key = .pastWindow) (later : comesFirst w.desc a b) : w.has b.key = false := by
  unfold KeyWindow.place at gone
  unfold comesFirst at later
  unfold KeyWindow.has
  cases direction : w.desc with
  | true =>
    simp only [direction,↓reduceIte,decide_eq_true_eq] at later
    have low : a.key < w.lo := by
      by_contra above
      by_cases under : a.key < w.hi <;> simp [direction,above,under] at gone
    simp [List.lt_trans later low]
  | false =>
    simp only [direction,Bool.false_eq_true,↓reduceIte,decide_eq_true_eq] at later
    have high : ¬ a.key < w.hi := by
      intro under
      by_cases below : a.key < w.lo <;> simp [direction,below,under] at gone
    have still : ¬ b.key < w.hi := fun under => high (List.lt_trans later under)
    simp [still]

def scanFor (w : KeyWindow) : List Trace → Option (Trace × List Trace)
  | [] => none
  | t :: rest =>
    match w.place t.key with
    | .inWindow => some (t,rest)
    | .pastWindow => none
    | .beforeWindow => scanFor w rest

section
variable {w : KeyWindow} {l rest : List Trace}

theorem scanFor_none (sorted : Ranked w.desc l) (ended : scanFor w l = none) :
    (l.filter fun t => w.has t.key) = [] := by
  induction l with
  | nil => rfl
  | cons t rest ih =>
    rw [scanFor] at ended
    cases placed : w.place t.key with
    | inWindow => simp [placed] at ended
    | pastWindow =>
      rw [filter_eq_nil_iff]
      intro x member
      rcases mem_cons.mp member with rfl | later
      · simp [place_out placed nofun]
      · simp [place_past placed (rel_of_pairwise_cons sorted later)]
    | beforeWindow =>
      simp only [placed] at ended
      rw [filter_cons,place_out placed nofun]
      exact ih sorted.of_cons ended

theorem scanFor_some (found : scanFor w l = some (t,rest)) :
    (l.filter fun t => w.has t.key) = t :: (rest.filter fun t => w.has t.key) ∧ (t :: rest) <:+ l := by
  induction l with
  | nil => cases found
  | cons x more ih =>
    rw [scanFor] at found
    cases placed : w.place x.key with
    | inWindow =>
      simp only [placed,Option.some.injEq,Prod.mk.injEq] at found
      obtain ⟨rfl,rfl⟩ := found
      rw [filter_cons,place_inWindow.mp placed]
      exact ⟨rfl,suffix_rfl⟩
    | pastWindow => simp [placed] at found
    | beforeWindow =>
      simp only [placed] at found
      obtain ⟨same,suffix⟩ := ih found
      rw [filter_cons,place_out placed nofun]
      exact ⟨same,suffix.trans (suffix_cons x more)⟩

end

section
variable {α β : Type}

variable (desc : Bool)

theorem inOrder_filterMap (f : α → Option β) (l : List α) : (inOrder desc l).filterMap f = inOrder desc (l.filterMap f) := by
  cases desc with
  | true => exact filterMap_reverse
  | false => rfl

theorem inOrder_flatMap (f : α → List β) (l : List α) :
    (inOrder desc l).flatMap (fun x => inOrder desc (f x)) = inOrder desc (l.flatMap f) := by
  cases desc with
  | true => exact reverse_flatMap.symm
  | false => rfl

theorem inOrder_perm (l : List α) : (inOrder desc l).Perm l := by
  cases desc with
  | true => exact reverse_perm l
  | false => exact List.Perm.refl l

theorem mem_inOrder (l : List α) (x : α) : x ∈ inOrder desc l ↔ x ∈ l := (inOrder_perm desc l).mem_iff

theorem inOrder_filter (p : α → Bool) (l : List α) : (inOrder desc l).filter p = inOrder desc (l.filter p) := by
  cases desc with
  | true => exact filter_reverse
  | false => rfl

end

theorem inOrder_sorted (desc : Bool) (sorted : l.Pairwise fun a b => a.key < b.key) : Ranked desc (inOrder desc l) := by
  cases desc with
  | true => simp only [Ranked,inOrder,comesFirst,↓reduceIte,decide_eq_true_eq,pairwise_reverse]; exact sorted
  | false => simp only [Ranked,inOrder,comesFirst,Bool.false_eq_true,↓reduceIte,decide_eq_true_eq]; exact sorted

section
variable (w : KeyWindow) (node : GoString)

def Taken.Sound (all more : List Trace) : Taken → Prop
  | .found t lines => scanFor w all = some (t,lines.filterMap (Line.trace node) ++ more)
  | .past => scanFor w all = none
  | .ended => scanFor w all = scanFor w more

theorem takeLines_sound (lines : List Line) (more : List Trace) :
    (takeLines w node lines).Sound w node (lines.filterMap (Line.trace node) ++ more) more := by
  induction lines with
  | nil => rfl
  | cons line rest ih =>
    rw [takeLines]
    cases held : line.trace node with
    | none => rw [filterMap_cons_none held]; exact ih
    | some t =>
      rw [filterMap_cons_some held]
      dsimp only
      cases placed : w.place t.key with
      | inWindow | pastWindow => simp [Taken.Sound,scanFor,placed]
      | beforeWindow =>
        have skipped : scanFor w (t :: rest.filterMap (Line.trace node) ++ more) = scanFor w (rest.filterMap (Line.trace node) ++ more) := by
          rw [cons_append,scanFor,placed]
        cases left : takeLines w node rest <;> rw [left] at ih <;> simpa only [Taken.Sound,skipped] using ih

def Frame.Readable (idx cap : Int) (frame : Frame) : Prop :=
  ∃ size lines, frame.claims = some size ∧ frame.lines = some lines ∧ idx+frame.takes size ≤ cap
def indexSize (frames : List Frame) : Int := (frames.length : Int)*indexEntrySize
def SegmentFile.Readable (cap : Int) (file : SegmentFile) : Prop :=
  ∀ frames, file.opened = some frames → indexSize frames ≤ cap ∧ ∀ f ∈ frames, f.Readable (indexSize frames) cap

theorem resize_room {h : Holdings} (fits : now ≤ cap) (room : h.n-held+cap ≤ h.limit) :
    h.resize held now = some ⟨h.n+(now-held),h.limit⟩ := by
  have free : ¬ (now > held ∧ h.n-held+now > h.limit) := by omega
  rw [Holdings.resize,if_neg free]

-- `others` is what the other sources hold.
def FrameStep.Sound (cap others limit : Int) (frames : List Frame) (all more : List Trace) : FrameStep → Prop
  | .tooLarge => False
  | .found hold held t lines rest =>
    scanFor w all = some (t,lines.filterMap (Line.trace node) ++ (rest.flatMap (Frame.scanned w node) ++ more)) ∧
      hold.n-held = others ∧ hold.limit = limit ∧ held ≤ cap ∧ ∀ f ∈ rest, f ∈ frames
  | .past hold => scanFor w all = none ∧ hold.n = others ∧ hold.limit = limit
  | .finished hold => scanFor w all = scanFor w more ∧ hold.n = others ∧ hold.limit = limit

end

theorem FrameStep.Sound.onward {step : FrameStep} (sound : step.Sound w node cap others limit frames all more)
    (same : scanFor w all' = scanFor w all) (part : ∀ f ∈ frames, f ∈ frames') : step.Sound w node cap others limit frames' all' more := by
  cases step with
  | tooLarge => exact sound
  | found hold held t lines rest =>
    obtain ⟨found,sum,limited,fits,rest⟩ := sound
    exact ⟨same.trans found,sum,limited,fits,fun f member => part f (rest f member)⟩
  | past hold | finished hold => exact ⟨same.trans sound.1,sound.2⟩

theorem readFrames_sound (w : KeyWindow) (node : GoString) (idx : Int) (frames : List Frame) (more : List Trace)
    (readable : ∀ f ∈ frames, f.Readable idx cap) (hold : Holdings) (held : Int) (room : hold.n-held+cap ≤ hold.limit) :
    (readFrames w node idx hold held frames).Sound w node cap (hold.n-held) hold.limit frames
      (frames.flatMap (Frame.scanned w node) ++ more) more := by
  induction frames generalizing hold held with
  | nil => exact ⟨rfl,rfl,rfl⟩
  | cons frame rest ih =>
    obtain ⟨size,lines,claims,decoded,fits⟩ := readable frame mem_cons_self
    rw [readFrames,claims]
    dsimp only
    rw [resize_room fits room,decoded]
    dsimp only
    have sum : hold.n+(idx+frame.takes size-held)-(idx+frame.takes size) = hold.n-held := by omega
    have front : frame.scanned w node = (inOrder w.desc lines).filterMap (Line.trace node) := by
      rw [Frame.scanned,Frame.traces,decoded,inOrder_filterMap]
      rfl
    have taken := takeLines_sound w node (inOrder w.desc lines) (rest.flatMap (Frame.scanned w node) ++ more)
    rw [flatMap_cons,append_assoc,front]
    cases outcome : takeLines w node (inOrder w.desc lines) with
    | found t left =>
      rw [outcome] at taken
      exact ⟨taken,sum,rfl,fits,fun f member => mem_cons_of_mem frame member⟩
    | past => rw [outcome] at taken; exact ⟨taken,sum,rfl⟩
    | ended =>
      rw [outcome] at taken
      have later := ih (forall_mem_cons.mp readable).2 ⟨hold.n+(idx+frame.takes size-held),hold.limit⟩
        (idx+frame.takes size) (by dsimp only; omega)
      rw [sum] at later
      exact later.onward taken fun f member => mem_cons_of_mem frame member

structure ArchiveSource.Ready (s : ArchiveSource) (cap : Int) : Prop where
  frames : ∀ f ∈ s.frames, f.Readable s.idx cap
  segs : ∀ file ∈ s.segs, file.Readable cap
  held : s.held ≤ cap

def Moves (w : KeyWindow) (node : GoString) (cap others limit : Int) (all : List Trace) (moved : Moved ArchiveSource) : Prop :=
  ∃ hold next, moved = .ok (hold,next) ∧ hold.limit = limit ∧
    (next = none → scanFor w all = none ∧ hold.n = others) ∧
    ∀ t s, next = some (t,s) → scanFor w all = some (t,s.unread) ∧ hold.n-s.held = others ∧ s.Ready cap ∧ s.w = w ∧ s.node = node

theorem afterFrames_moves {next} (readable : ∀ f ∈ frames, f.Readable idx cap) (files : ∀ file ∈ segs, file.Readable cap)
    (sound : step.Sound w node cap others limit frames all (segs.flatMap (SegmentFile.scanned w node)))
    (later : ∀ hold, hold.n = others → hold.limit = limit → Moves w node cap others limit (segs.flatMap (SegmentFile.scanned w node)) (next hold)) :
    Moves w node cap others limit all (afterFrames w node idx segs next step) := by
  cases step with
  | tooLarge => exact sound.elim
  | found hold held t lines rest =>
    obtain ⟨found,sum,limited,fits,part⟩ := sound
    refine ⟨hold,some (t,⟨node,w,segs,rest,lines,held,idx⟩),rfl,limited,by simp,?_⟩
    rintro _ _ ⟨⟩
    exact ⟨found,sum,⟨fun f member => readable f (part f member),files,fits⟩,rfl,rfl⟩
  | past hold => exact ⟨hold,none,rfl,sound.2.2,fun _ => ⟨sound.1,sound.2.1⟩,by simp⟩
  | finished hold =>
    obtain ⟨hold',moved,ok,limited,ended,at_⟩ := later hold sound.2.1 sound.2.2
    refine ⟨hold',moved,ok,limited,?_,?_⟩
    · intro empty
      rw [sound.1]
      exact ended empty
    · intro t s same
      rw [sound.1]
      exact at_ t s same

theorem readFiles_moves (w : KeyWindow) (node : GoString) (segs : List SegmentFile) (files : ∀ file ∈ segs, file.Readable cap)
    (hold : Holdings) (room : hold.n+cap ≤ hold.limit) :
    Moves w node cap hold.n hold.limit (segs.flatMap (SegmentFile.scanned w node)) (readFiles w node hold segs) := by
  induction segs generalizing hold with
  | nil => exact ⟨hold,none,rfl,rfl,fun _ => ⟨rfl,rfl⟩,by simp⟩
  | cons file rest ih =>
    have tail : ∀ file ∈ rest, file.Readable cap := (forall_mem_cons.mp files).2
    rw [readFiles,flatMap_cons]
    cases opened : file.opened with
    | none =>
      have nothing : file.scanned w node = [] := by rw [SegmentFile.scanned,opened]; cases w.desc <;> rfl
      rw [nothing]
      exact ih tail hold room
    | some frames =>
      obtain ⟨index,readable⟩ := files file mem_cons_self frames opened
      have kept : ∀ f ∈ inOrder w.desc (frameRange w frames), f.Readable (indexSize frames) cap := by
        intro f member
        rw [mem_inOrder] at member
        exact readable f (mem_of_mem_take (mem_of_mem_drop member))
      have room' : hold.n-0+cap ≤ hold.limit := by omega
      have whole : file.scanned w node = (inOrder w.desc (frameRange w frames)).flatMap (Frame.scanned w node) := by
        rw [SegmentFile.scanned,opened]
        rfl
      dsimp only
      rw [show (frames.length : Int)*indexEntrySize = indexSize frames from rfl,resize_room index room',whole]
      have sound := readFrames_sound w node (indexSize frames) _ (rest.flatMap (SegmentFile.scanned w node)) kept
        ⟨hold.n+(indexSize frames-0),hold.limit⟩ (indexSize frames) (by dsimp only; omega)
      have sum : hold.n+(indexSize frames-0)-indexSize frames = hold.n := by omega
      rw [sum] at sound
      apply afterFrames_moves kept tail sound
      intro hold' same limited
      dsimp only at limited
      have onward := ih tail hold' (by omega)
      rwa [same,limited] at onward

theorem advance_moves {s : ArchiveSource} (ready : s.Ready cap) (hold : Holdings) (room : hold.n-s.held+cap ≤ hold.limit) :
    Moves s.w s.node cap (hold.n-s.held) hold.limit s.unread (s.advance hold) := by
  have taken := takeLines_sound s.w s.node s.lines (s.frames.flatMap (Frame.scanned s.w s.node) ++ s.segs.flatMap (SegmentFile.scanned s.w s.node))
  rw [ArchiveSource.advance]
  cases outcome : takeLines s.w s.node s.lines with
  | found t lines =>
    rw [outcome] at taken
    refine ⟨hold,some (t,{ s with lines := lines }),rfl,rfl,by simp,?_⟩
    rintro _ _ ⟨⟩
    exact ⟨taken,rfl,{ready with},rfl,rfl⟩
  | past => rw [outcome] at taken; exact ⟨hold.release s.held,none,rfl,rfl,fun _ => ⟨taken,rfl⟩,by simp⟩
  | ended =>
    rw [outcome] at taken
    have sound := (readFrames_sound s.w s.node s.idx s.frames (s.segs.flatMap (SegmentFile.scanned s.w s.node)) ready.frames hold s.held room).onward
      taken fun f member => member
    apply afterFrames_moves ready.frames ready.segs sound
    intro hold' same limited
    have onward := readFiles_moves s.w s.node s.segs ready.segs hold' (by omega)
    rwa [same,limited] at onward

structure Span.Dated (sp : Span) : Prop where
  start : TraceSearch.Dated sp.from_
  stop : TraceSearch.Dated sp.to_

def KeyCursor (after : Option GoString) : Prop := ∀ c, after = some c → ∃ t, Keyed c t

section
variable {sp : Span} {after : Option GoString} {key : GoString} {s : Int}

theorem newKeyWindow_desc (sp : Span) (after : Option GoString) : (newKeyWindow sp after).desc = sp.desc := by
  unfold newKeyWindow
  cases after with
  | none => rfl
  | some c =>
    dsimp only
    split
    · rfl
    · split <;> rfl

theorem newKeyWindow_has (dated : sp.Dated) (keyed : Keyed key s) :
    (newKeyWindow sp after).has key ↔ (sp.from_ ≤ s ∧ s < sp.to_) ∧ past sp.desc after key := by
  have low : ¬ key < timePrefix sp.from_ ↔ sp.from_ ≤ s := by rw [keyed.lt_prefix dated.start,not_lt]
  have high : key < timePrefix sp.to_ ↔ s < sp.to_ := keyed.lt_prefix dated.stop
  simp only [← low,← high]
  unfold newKeyWindow past
  cases after with
  | none => simp [KeyWindow.has]
  | some c =>
    cases direction : sp.desc with
    | true =>
      by_cases under : c < timePrefix sp.to_
      · have further : key < c → key < timePrefix sp.to_ := fun less => List.lt_trans less under
        simp only [under,and_self,↓reduceIte,has_iff,decide_eq_true_eq]
        tauto
      · have further : key < timePrefix sp.to_ → key < c := by
          intro less
          exact lt_of_lt_of_not_lt less under
        simp only [under,and_false,↓reduceIte,has_iff,decide_eq_true_eq,Bool.true_eq_false,false_and]
        tauto
    | false =>
      by_cases under : c < timePrefix sp.from_
      · have further : ¬ key < timePrefix sp.from_ → c < key := by
          intro above
          exact lt_of_lt_of_not_lt under above
        simp only [under,not_true_eq_false,and_false,Bool.false_eq_true,false_and,↓reduceIte,has_iff,decide_eq_true_eq]
        tauto
      · have further : c < key → ¬ key < timePrefix sp.from_ := by
          intro less above
          exact under (List.lt_trans less above)
        simp only [under,not_false_eq_true,and_self,Bool.false_eq_true,false_and,↓reduceIte,has_iff,decide_eq_true_eq,append_zero_lt,not_not]
        tauto

theorem newKeyWindow_bounds (dated : sp.Dated) (cursor : KeyCursor after) (keyed : Keyed key s)
    (held : (newKeyWindow sp after).has key) : (newKeyWindow sp after).from_ ≤ s ∧ s < (newKeyWindow sp after).until_ := by
  obtain ⟨⟨low,high⟩,beyond⟩ := (newKeyWindow_has dated keyed).mp held
  have own {t : Int} (dated : TraceSearch.Dated t) : traceKeyTime (timePrefix t) = t := by
    have read := prefix_time dated []
    rwa [append_nil] at read
  have start := own dated.start
  have stop := own dated.stop
  unfold KeyWindow.from_ KeyWindow.until_ newKeyWindow
  cases after with
  | none => simp only [start,stop]; omega
  | some c =>
    obtain ⟨t,cursorKey⟩ := cursor c rfl
    cases direction : sp.desc with
    | true =>
      simp only [past,direction,↓reduceIte,decide_eq_true_eq] at beyond
      have order := keyed.time_le cursorKey beyond
      by_cases under : c < timePrefix sp.to_
      · simp only [under,and_self,↓reduceIte,start,cursorKey.time]; omega
      · simp only [under,and_false,↓reduceIte,Bool.true_eq_false,false_and,start,stop]; omega
    | false =>
      simp only [past,direction,Bool.false_eq_true,↓reduceIte,decide_eq_true_eq] at beyond
      have order := cursorKey.time_le keyed beyond
      by_cases under : c < timePrefix sp.from_
      · simp only [under,not_true_eq_false,and_false,Bool.false_eq_true,false_and,↓reduceIte,start,stop]
        omega
      have time : traceKeyTime (c ++ [0]) = t := by
        obtain ⟨dated,id,rfl⟩ := cursorKey
        rw [appendTraceKey,append_assoc]
        exact prefix_time dated (byte ':' :: id ++ [0])
      simp only [under,not_false_eq_true,and_self,Bool.false_eq_true,false_and,↓reduceIte,time,stop]
      omega

end

def wanted (sp : Span) (after : Option GoString) (t : Trace) : Bool :=
  (decide (sp.from_ ≤ traceKeyTime t.key) && decide (traceKeyTime t.key < sp.to_)) && past sp.desc after t.key

theorem wanted_iff :
    wanted sp after t ↔ (sp.from_ ≤ traceKeyTime t.key ∧ traceKeyTime t.key < sp.to_) ∧ past sp.desc after t.key := by
  simp [wanted]

theorem wanted_has (dated : sp.Dated) (keyed : Keyed t.key s) : wanted sp after t = (newKeyWindow sp after).has t.key := by
  rw [Bool.eq_iff_iff,newKeyWindow_has dated keyed,wanted_iff,keyed.time]

section
variable {node : GoString} {frame : Frame} {frames : List Frame} {file : SegmentFile} {t : Trace}

theorem Frame.mem_traces (held : t ∈ frame.traces node) :
    ∃ line ∈ frame.lines.getD [], ∃ rec ∈ line.record, t.key = appendTraceKey rec.timestamp rec.id ∧ t.record = some rec ∧ t.node = node := by
  obtain ⟨line,member,read⟩ := mem_filterMap.mp held
  unfold Line.trace at read
  split at read
  · cases read
  · obtain ⟨rec,given,rfl⟩ := Option.map_eq_some_iff.mp read; exact ⟨line,member,rec,given,rfl,rfl,rfl⟩

theorem Frame.keys_eq (node : GoString) (frame : Frame) : (frame.traces node).map Trace.key = frame.keys := by
  have alike : ∀ line : Line, (line.trace node).map Trace.key = (line.trace []).map Trace.key := by
    intro line
    unfold Line.trace
    split
    · rfl
    · simp [Function.comp_def]
  rw [Frame.keys,Frame.traces,Frame.traces,map_filterMap,map_filterMap]
  simp only [alike]

theorem Laid.frame_time (laid : Laid start frames) (dated : 0 ≤ start ∧ start+hour < 2^63) (inside : frame ∈ frames) (held : t ∈ frame.traces node) :
    ∃ s, Keyed t.key s ∧ frame.first ≤ s ∧ s ≤ frame.last := by
  obtain ⟨line,member,rec,given,key,_⟩ := Frame.mem_traces held
  obtain ⟨low,high⟩ := laid.bracketed frame inside line member rec given
  obtain ⟨begin_,_,end_⟩ := laid.inside frame inside
  exact ⟨rec.timestamp,⟨⟨by omega,by omega⟩,rec.id,key⟩,low,high⟩

theorem SegmentFile.time (file : SegmentFile) (held : t ∈ file.traces node) :
    ∃ s, Keyed t.key s ∧ file.start ≤ s ∧ s < file.start+hour := by
  unfold SegmentFile.traces at held
  cases opened : file.opened with
  | none => simp [opened] at held
  | some frames =>
    rw [opened] at held
    obtain ⟨frame,inside,held⟩ := mem_flatMap.mp held
    have laid := file.laid frames opened
    obtain ⟨s,keyed,low,high⟩ := laid.frame_time file.dated inside held
    obtain ⟨begin_,_,end_⟩ := laid.inside frame inside
    exact ⟨s,keyed,by omega,by omega⟩

theorem SegmentFile.sorted (node : GoString) (file : SegmentFile) : (file.traces node).Pairwise fun a b => a.key < b.key := by
  unfold SegmentFile.traces
  cases opened : file.opened with
  | none => exact .nil
  | some frames =>
    have sorted := (file.laid frames opened).sorted
    have keys : (frames.flatMap (Frame.traces node)).map Trace.key = frames.flatMap Frame.keys := by
      rw [map_flatMap]
      simp only [Frame.keys_eq]
    rw [← keys,pairwise_map] at sorted
    exact sorted

theorem NodeDir.sorted (dir : NodeDir) : dir.traces.Pairwise fun a b => a.key < b.key := by
  unfold NodeDir.traces
  rw [pairwise_flatMap]
  refine ⟨fun file _ => file.sorted dir.name,?_⟩
  apply dir.ordered.imp
  intro f g apart a inF b inG
  obtain ⟨s,keyed,_,high⟩ := f.time inF
  obtain ⟨s',keyed',low,_⟩ := g.time inG
  exact keyed.earlier keyed' (by omega)

theorem NodeDir.time (dir : NodeDir) (held : t ∈ dir.traces) : ∃ s, Keyed t.key s := by
  obtain ⟨file,_,held⟩ := mem_flatMap.mp held
  obtain ⟨s,keyed,_⟩ := file.time held
  exact ⟨s,keyed⟩

end

section
variable {α β : Type} {q : β → Bool}

theorem filter_flatMap_skip {f : α → List β} {p : α → Bool} {l : List α} (skipped : ∀ x ∈ l, p x = false → (f x).filter q = []) :
    ((l.filter p).flatMap f).filter q = (l.flatMap f).filter q := by
  induction l with
  | nil => rfl
  | cons x rest ih =>
    have later := ih (forall_mem_cons.mp skipped).2
    rw [flatMap_cons,filter_append,filter_cons]
    split
    · rw [flatMap_cons,filter_append,later]
    · next out =>
      rw [skipped x mem_cons_self (Bool.eq_false_iff.mpr out),later,nil_append]

end

section
variable {w : KeyWindow} (bounds : ∀ key s, Keyed key s → w.has key = true → w.from_ ≤ s ∧ s < w.until_)
include bounds

theorem frameRange_filter (laid : Laid start frames) (dated : 0 ≤ start ∧ start+hour < 2^63) (node : GoString) :
    ((frameRange w frames).flatMap (Frame.traces node)).filter (fun t => w.has t.key) =
      (frames.flatMap (Frame.traces node)).filter fun t => w.has t.key := by
  have outside : ∀ part : List Frame, (∀ f ∈ part, f ∈ frames ∧ (f.last < w.from_ ∨ w.until_ ≤ f.first)) →
      (part.flatMap (Frame.traces node)).filter (fun t => w.has t.key) = [] := by
    intro part out
    rw [filter_eq_nil_iff]
    intro t member has
    obtain ⟨f,inPart,held⟩ := mem_flatMap.mp member
    obtain ⟨inside,apart⟩ := out f inPart
    obtain ⟨s,keyed,low,high⟩ := laid.frame_time dated inside held
    obtain ⟨after,before⟩ := bounds t.key s keyed has
    omega
  unfold frameRange
  generalize first : (frames.findIdx fun f => decide (w.from_ ≤ f.last)) = a
  generalize stop : (frames.findIdx fun f => decide (w.until_ ≤ f.first)) = b
  have early : ∀ f ∈ frames.take a, f ∈ frames ∧ (f.last < w.from_ ∨ w.until_ ≤ f.first) := by
    intro f member
    obtain ⟨i,bound,rfl⟩ := mem_take_iff_getElem.mp member
    have missed := not_of_lt_findIdx (show i < frames.findIdx _ by rw [first]; omega)
    simp only [decide_eq_false_iff_not,not_le] at missed
    exact ⟨getElem_mem _,.inl missed⟩
  have late : ∀ f ∈ frames.drop (max a b), f ∈ frames ∧ (f.last < w.from_ ∨ w.until_ ≤ f.first) := by
    intro f member
    obtain ⟨i,bound,rfl⟩ := mem_drop_iff_getElem.mp member
    have inRange : b < frames.length := by omega
    have reached : w.until_ ≤ (frames.get ⟨b,inRange⟩).first := by
      have found := @List.findIdx_getElem Frame (fun f => decide (w.until_ ≤ f.first)) frames (by rw [stop]; exact inRange)
      simp only [decide_eq_true_eq,stop] at found
      exact found
    refine ⟨getElem_mem _,.inr ?_⟩
    rcases Nat.lt_or_ge b (max a b+i) with further | here
    · have order := pairwise_iff_getElem.mp laid.tiled b (max a b+i) inRange (by omega) further
      have inside := laid.inside (frames.get ⟨b,inRange⟩) (get_mem _ _)
      simp only [get_eq_getElem] at reached inside
      omega
    · have same : b = max a b+i := by omega
      simp only [get_eq_getElem] at reached
      simpa only [← same] using reached
  have split : frames = frames.take a ++ ((frames.take (max a b)).drop a ++ frames.drop (max a b)) := by
    have whole : (frames.take (max a b)).take a = frames.take a := by
      rw [take_take,Nat.min_eq_left (Nat.le_max_left a b)]
    rw [← append_assoc,← whole,take_append_drop,take_append_drop]
  conv_rhs => rw [split,flatMap_append,flatMap_append,filter_append,filter_append,outside _ early,outside _ late]
  simp

theorem listSegments_filter (files : List SegmentFile) (node : GoString) :
    ((listSegments w files).flatMap fun file => (frameRange w (file.opened.getD [])).flatMap (Frame.traces node)).filter (fun t => w.has t.key) =
      (files.flatMap (SegmentFile.traces node)).filter fun t => w.has t.key := by
  have each : ∀ file : SegmentFile, ((frameRange w (file.opened.getD [])).flatMap (Frame.traces node)).filter (fun t => w.has t.key) =
      (file.traces node).filter fun t => w.has t.key := by
    intro file
    unfold SegmentFile.traces
    cases opened : file.opened with
    | none => rfl
    | some frames => exact frameRange_filter bounds (file.laid frames opened) file.dated node
  rw [filter_flatMap,flatMap_congr fun file _ => each file,← filter_flatMap,listSegments]
  apply filter_flatMap_skip
  intro file _ unlisted
  rw [filter_eq_nil_iff]
  intro t held has
  obtain ⟨s,keyed,low,high⟩ := file.time held
  obtain ⟨after,before⟩ := bounds t.key s keyed has
  simp only [Bool.and_eq_false_iff,decide_eq_false_iff_not] at unlisted
  omega

end

def Source.remaining : Source → List Trace
  | .store rest => rest
  | .archive s => s.unread.filter fun t => s.w.has t.key

section
variable {sp : Span} {after : Option GoString}

theorem newKeyWindow_empty {w : KeyWindow} (empty : ¬ w.lo < w.hi) (key : GoString) : w.has key = false := by
  rw [← Bool.not_eq_true]
  intro held
  rw [has_iff] at held
  apply empty
  by_contra
  exact held.1 (lt_of_lt_of_not_lt held.2 empty)

theorem wanted_empty (empty : ¬ sp.from_ < sp.to_) (l : List Trace) : l.filter (wanted sp after) = [] := by
  rw [filter_eq_nil_iff]
  intro t _ within
  obtain ⟨⟨low,high⟩,_⟩ := wanted_iff.mp within
  omega

theorem newArchiveSource_unread (made : newArchiveSource dir sp after = some s) :
    s.w = newKeyWindow sp after ∧ s.node = dir.name ∧ s.held = 0 ∧ s.frames = [] ∧ s.segs = inOrder sp.desc (listSegments (newKeyWindow sp after) dir.files) ∧
      s.unread = inOrder sp.desc ((listSegments (newKeyWindow sp after) dir.files).flatMap fun file =>
        (frameRange (newKeyWindow sp after) (file.opened.getD [])).flatMap (Frame.traces dir.name)) := by
  obtain ⟨_,made⟩ := Option.ite_none_right_eq_some.mp made
  dsimp only at made
  split at made
  · obtain ⟨_,⟨⟩⟩ := Option.ite_none_left_eq_some.mp made
    refine ⟨rfl,rfl,rfl,rfl,rfl,?_⟩
    have frames : Frame.scanned (newKeyWindow sp after) dir.name = fun frame => inOrder sp.desc (frame.traces dir.name) := by
      funext frame
      rw [Frame.scanned,newKeyWindow_desc]
    have files : SegmentFile.scanned (newKeyWindow sp after) dir.name = fun file =>
        inOrder sp.desc ((frameRange (newKeyWindow sp after) (file.opened.getD [])).flatMap (Frame.traces dir.name)) := by
      funext file
      rw [SegmentFile.scanned,newKeyWindow_desc,frames,inOrder_flatMap]
    rw [ArchiveSource.unread]
    simp only [filterMap_nil,flatMap_nil,nil_append]
    rw [files,inOrder_flatMap]
  · cases made

theorem newArchiveSource_remaining (dir : NodeDir) (sp : Span) (start : TraceSearch.Dated sp.from_) (stop : sp.from_ < sp.to_ → TraceSearch.Dated sp.to_)
    (cursor : KeyCursor after) :
    (((newArchiveSource dir sp after).map Source.archive).toList.flatMap Source.remaining).Perm (dir.traces.filter (wanted sp after)) := by
  by_cases period : sp.from_ < sp.to_
  · have dated : sp.Dated := ⟨start,stop period⟩
    have same : dir.traces.filter (wanted sp after) = dir.traces.filter fun t => (newKeyWindow sp after).has t.key := by
      apply filter_congr
      intro t member
      obtain ⟨s,keyed⟩ := dir.time member
      exact wanted_has dated keyed
    have read := listSegments_filter (fun key s keyed held => newKeyWindow_bounds dated cursor keyed held) dir.files dir.name
    rw [same,NodeDir.traces,← read]
    cases made : newArchiveSource dir sp after with
    | some s =>
      obtain ⟨window,_,_,_,_,unread⟩ := newArchiveSource_unread made
      simp only [Option.map_some,Option.toList_some,flatMap_cons,flatMap_nil,append_nil,Source.remaining]
      rw [window,unread,inOrder_filter]
      exact inOrder_perm _ _
    | none =>
      simp only [newArchiveSource,period,↓reduceIte] at made
      by_cases window : (newKeyWindow sp after).lo < (newKeyWindow sp after).hi
      · simp only [window,↓reduceIte,ite_eq_left_iff,reduceCtorEq,imp_false,Decidable.not_not] at made
        simp [made]
      · simp [newKeyWindow_empty window]
  · rw [wanted_empty period,newArchiveSource,if_neg period]; exact List.Perm.nil

theorem newArchiveSource_sorted (made : newArchiveSource dir sp after = some s) : Ranked sp.desc s.unread := by
  obtain ⟨_,_,_,_,_,unread⟩ := newArchiveSource_unread made
  rw [unread]
  apply inOrder_sorted
  refine List.Pairwise.sublist ?_ dir.sorted
  have each : ∀ file : SegmentFile,
      ((frameRange (newKeyWindow sp after) (file.opened.getD [])).flatMap (Frame.traces dir.name)).Sublist (file.traces dir.name) := by
    intro file
    apply List.Sublist.flatMap
    exact (drop_sublist _ _).trans (take_sublist _ _)
  have listed : (listSegments (newKeyWindow sp after) dir.files).Sublist dir.files := filter_sublist
  exact (List.Sublist.flatMap_right _ fun file _ => each file).trans (listed.flatMap _)

theorem iterOptions_eq (start : 0 ≤ sp.from_) (stop : 0 ≤ sp.to_) :
    iterOptions sp after = ((newKeyWindow sp after).lo,(newKeyWindow sp after).hi) := by
  have same {t : Int} (dated : 0 ≤ t) : timeKeyPrefix t = timePrefix t := by rw [timeKeyPrefix,timePrefix,max_eq_left dated]
  unfold iterOptions newKeyWindow
  rw [same start,same stop]
  cases after with
  | none => rfl
  | some c =>
    cases direction : sp.desc with
    | true => by_cases under : c < timePrefix sp.to_ <;> simp [under]
    | false =>
      have next : timePrefix sp.from_ < c ++ [0] ↔ ¬ c < timePrefix sp.from_ := append_zero_lt
      by_cases under : c < timePrefix sp.from_ <;> simp [under,next]

theorem Store.iter_eq (store : Store) (node : GoString) (dated : sp.Dated) :
    store.iter node sp after = inOrder sp.desc ((store.entries.map (Entry.trace node)).filter (wanted sp after)) := by
  have same : (store.entries.map (Entry.trace node)).filter (wanted sp after) =
      (store.entries.filter fun e => (newKeyWindow sp after).has e.key).map (Entry.trace node) := by
    rw [filter_map]
    congr 1
    apply filter_congr
    intro e member
    obtain ⟨s,keyed⟩ := store.keyed e member
    exact wanted_has dated keyed
  unfold Store.iter
  rw [iterOptions_eq dated.start.1 dated.stop.1,same]
  dsimp only
  split
  · rfl
  · next empty =>
    simp only [newKeyWindow_empty empty,filter_false,map_nil]
    cases sp.desc <;> rfl

end

-- Down the keys is up them with the two sides exchanged, so each law is proved for one direction.
theorem comesFirst_asymm (first : comesFirst desc a b) : comesFirst desc b a = false := by
  have up {a b : Trace} (first : comesFirst false a b) : comesFirst false b a = false :=
    decide_eq_false (List.lt_asymm (of_decide_eq_true first))
  cases desc with
  | true | false => exact up first

theorem comesFirst_trans (first : comesFirst desc a b) (second : comesFirst desc b c) : comesFirst desc a c := by
  have up {a b c : Trace} (first : comesFirst false a b) (second : comesFirst false b c) : comesFirst false a c :=
    decide_eq_true (List.lt_trans (of_decide_eq_true first) (of_decide_eq_true second))
  cases desc with
  | true => exact up second first
  | false => exact up first second

theorem comesFirst_total (apart : a.key ≠ b.key) (notFirst : comesFirst desc b a = false) : comesFirst desc a b := by
  have up {a b : Trace} (apart : a.key ≠ b.key) (notFirst : comesFirst false b a = false) : comesFirst false a b := by
    refine decide_eq_true (Decidable.byContradiction fun still => apart ?_)
    exact List.le_antisymm (List.not_lt.mp (of_decide_eq_false notFirst)) (List.not_lt.mp still)
  cases desc with
  | true => exact up apart.symm notFirst
  | false => exact up apart notFirst

theorem comesFirst_key (first : comesFirst desc a b) : a.key ≠ b.key := by
  intro same
  have back := comesFirst_asymm first
  unfold comesFirst at first back
  rw [same] at first back
  rw [first] at back
  cases back

theorem notFirst_trans (one : comesFirst desc b a = false) (two : comesFirst desc c b = false) : comesFirst desc c a = false := by
  have up {a b c : Trace} (one : comesFirst false b a = false) (two : comesFirst false c b = false) : comesFirst false c a = false :=
    decide_eq_false fun less => of_decide_eq_false two (lt_of_lt_of_not_lt less (of_decide_eq_false one))
  cases desc with
  | true => exact up two one
  | false => exact up one two

section
variable (need : GoString → Nat) (desc : Bool)

def Source.Good : Source → Prop
  | .store rest => rest.Pairwise fun a b => comesFirst desc a b
  | .archive s => s.Ready (need s.node) ∧ s.w.desc = desc ∧ s.unread.Pairwise fun a b => comesFirst desc a b

def Source.held : Source → Int
  | .store _ => 0
  | .archive s => s.held

def Source.cap : Source → Int
  | .store _ => 0
  | .archive s => need s.node

end

section
variable {need : GoString → Nat} {desc : Bool} {s : Source}

theorem Source.Good.sorted (good : s.Good need desc) : Ranked desc s.remaining := by
  cases s with
  | store rest => exact good
  | archive s => exact good.2.2.filter _

theorem Source.Good.fits (good : s.Good need desc) : s.held ≤ s.cap need := by
  cases s with
  | store rest => exact Int.le_refl 0
  | archive s => exact good.1.held

theorem Source.cap_nonneg (need : GoString → Nat) (s : Source) : 0 ≤ s.cap need := by
  cases s with
  | store rest => exact Int.le_refl 0
  | archive s => exact Int.natCast_nonneg _

theorem Source.advance_moves (good : s.Good need desc) (hold : Holdings) (room : hold.n-s.held+s.cap need ≤ hold.limit) :
    ∃ hold' next, s.advance hold = .ok (hold',next) ∧ hold'.limit = hold.limit ∧
      (next = none → s.remaining = [] ∧ hold'.n = hold.n-s.held) ∧
      ∀ t s', next = some (t,s') → s.remaining = t :: s'.remaining ∧ hold'.n-s'.held = hold.n-s.held ∧ s'.Good need desc ∧ s'.cap need = s.cap need := by
  cases s with
  | store rest =>
    cases rest with
    | nil => exact ⟨hold,none,rfl,rfl,fun _ => ⟨rfl,(Int.sub_zero hold.n).symm⟩,by simp⟩
    | cons t rest =>
      refine ⟨hold,some (t,.store rest),rfl,rfl,by simp,?_⟩
      rintro _ _ ⟨⟩
      exact ⟨rfl,rfl,List.Pairwise.of_cons good,rfl⟩
  | archive s =>
    obtain ⟨ready,direction,sorted⟩ := good
    obtain ⟨hold',next,moved,limited,ended,onward⟩ := TraceSearch.advance_moves ready hold room
    rw [Source.advance,moved]
    have order : Ranked s.w.desc s.unread := by rwa [direction]
    cases next with
    | none =>
      obtain ⟨nothing,sum⟩ := ended rfl
      exact ⟨hold',none,rfl,limited,fun _ => ⟨scanFor_none order nothing,sum⟩,by simp⟩
    | some found =>
      obtain ⟨t,s'⟩ := found
      obtain ⟨next,sum,ready',window,node⟩ := onward t s' rfl
      obtain ⟨rest,suffix⟩ := scanFor_some next
      refine ⟨hold',some (t,.archive s'),rfl,limited,by simp,?_⟩
      rintro _ _ ⟨⟩
      refine ⟨?_,sum,⟨?_,?_,?_⟩,?_⟩
      · simp only [Source.remaining,window]; exact rest
      · rwa [node]
      · rwa [window]
      · exact (sorted.sublist suffix.sublist).of_cons
      · simp only [Source.cap,node]

end

structure Merging (need : GoString → Nat) (desc : Bool) (items : List (Trace × Source)) (hold : Holdings) (l : List Trace) : Prop where
  sorted : l.Pairwise fun a b => comesFirst desc a b
  whole : l.Perm (items.flatMap fun x => x.1 :: x.2.remaining)
  good : ∀ x ∈ items, x.2.Good need desc
  heads : ∀ x ∈ items, (x.1 :: x.2.remaining).Pairwise fun a b => comesFirst desc a b
  sum : hold.n = (items.map fun x => x.2.held).sum
  room : (items.map fun x => x.2.cap need).sum ≤ hold.limit

variable {need : GoString → Nat} {desc : Bool} {items others : List (Trace × Source)} {hold : Holdings} {l : List Trace}

theorem sum_held_le (good : ∀ x ∈ items, x.2.Good need desc) : (items.map fun x => x.2.held).sum ≤ (items.map fun x => x.2.cap need).sum :=
  sum_le_sum fun x held => (good x held).fits

theorem Merging.perm (state : Merging need desc items hold l) (same : items.Perm others) : Merging need desc others hold l where
  sorted := state.sorted
  whole := state.whole.trans (same.flatMap_right _)
  good := fun x member => state.good x (same.mem_iff.mpr member)
  heads := fun x member => state.heads x (same.mem_iff.mpr member)
  sum := state.sum.trans (same.map _).sum_eq
  room := by
    have caps := (same.map fun x => x.2.cap need).sum_eq
    rw [← caps]
    exact state.room

theorem Merging.next (state : Merging need desc ((t,s) :: others) hold l) (top : ∀ o ∈ others, comesFirst desc o.1 t = false) :
    ∃ rest, l = t :: rest ∧ rest.Perm (s.remaining ++ others.flatMap fun x => x.1 :: x.2.remaining) := by
  have whole := state.whole
  rw [flatMap_cons,cons_append] at whole
  have keys : ((t :: (s.remaining ++ others.flatMap fun x => x.1 :: x.2.remaining)).map Trace.key).Nodup := by
    have distinct : (l.map Trace.key).Nodup := by
      rw [List.Nodup,pairwise_map]
      exact state.sorted.imp comesFirst_key
    exact (whole.map Trace.key).nodup_iff.mp distinct
  apply head_first (fun a b first => by rw [comesFirst_asymm first]; simp) state.sorted whole
  intro x member
  rcases mem_append.mp member with own | other
  · exact rel_of_pairwise_cons (state.heads (t,s) mem_cons_self) own
  obtain ⟨o,inOthers,held⟩ := mem_flatMap.mp other
  have apart : t.key ≠ o.1.key := by
    intro same
    rw [map_cons,nodup_cons] at keys
    apply keys.1
    rw [same]
    exact List.mem_map_of_mem (mem_append_right _ (mem_flatMap.mpr ⟨o,inOthers,mem_cons_self⟩))
  have before := comesFirst_total apart (top o inOthers)
  rcases mem_cons.mp held with rfl | later
  · exact before
  · exact comesFirst_trans before (rel_of_pairwise_cons (state.heads o (mem_cons_of_mem _ inOthers)) later)

variable (u : Tables)

def examine (c : Collector) : List Trace → Collector
  | [] => c
  | t :: rest => if (c.offer u t).done then c.offer u t else examine (c.offer u t) rest

theorem mergeLoop_examine (fuel : Nat) (c : Collector) (enough : l.length < fuel) (state : Merging need desc items hold l) :
    mergeLoop u desc fuel items hold c = .ok (examine u c l) := by
  induction fuel generalizing items hold l c with
  | zero => exact absurd enough (Nat.not_lt_zero _)
  | succ fuel ih =>
    rw [mergeLoop]
    cases picked : pick (comesFirst desc) items with
    | none =>
      have empty := state.whole
      rw [pick_none.mp picked] at empty
      rw [empty.eq_nil]
      rfl
    | some found =>
      obtain ⟨⟨t,s⟩,others⟩ := found
      have state := state.perm (pick_perm picked)
      have top : ∀ o ∈ others, comesFirst desc o.1 t = false := by
        apply pick_first ?_ ?_ picked
        · intro a b first; exact comesFirst_asymm first
        · intro a b c one two; exact notFirst_trans one two
      obtain ⟨rest,rfl,left⟩ := state.next top
      dsimp only
      rw [examine]
      split
      · rfl
      have sum := state.sum
      have room := state.room
      have within := sum_held_le fun x member => state.good x (mem_cons_of_mem (t,s) member)
      simp only [map_cons,sum_cons] at sum room
      have top_good : s.Good need desc := state.good (t,s) mem_cons_self
      obtain ⟨hold',next,moved,limited,ended,onward⟩ := Source.advance_moves top_good hold (by omega)
      rw [moved]
      apply ih (c.offer u t) (Nat.lt_of_succ_lt_succ enough)
      have goods := (forall_mem_cons.mp state.good).2
      obtain ⟨heads,rests⟩ := forall_mem_cons.mp state.heads
      cases next with
      | none =>
        obtain ⟨nothing,freed⟩ := ended rfl
        have some_ := s.cap_nonneg need
        rw [nothing] at left
        refine ⟨state.sorted.of_cons,left,goods,rests,?_,?_⟩
        · simp only [toList_none,nil_append]; omega
        · simp only [toList_none,nil_append]; omega
      | some found =>
        obtain ⟨t',s'⟩ := found
        obtain ⟨split,same,good,cap⟩ := onward t' s' rfl
        rw [split] at left heads
        refine ⟨state.sorted.of_cons,left,?_,?_,?_,?_⟩
        · exact forall_mem_cons.mpr ⟨good,goods⟩
        · exact forall_mem_cons.mpr ⟨heads.of_cons,rests⟩
        · simp only [toList_some,cons_append,nil_append,map_cons,sum_cons]; omega
        · simp only [toList_some,cons_append,nil_append,map_cons,sum_cons,cap]; omega

section
variable (srcs : List Source)

theorem startAll_merging (good : ∀ s ∈ srcs, s.Good need desc ∧ s.held = 0) (hold : Holdings)
    (room : hold.n+(srcs.map fun s => s.cap need).sum ≤ hold.limit) :
    ∃ hold' items, startAll srcs hold = .ok (hold',items) ∧ hold'.limit = hold.limit ∧
      (items.flatMap fun x => x.1 :: x.2.remaining) = srcs.flatMap Source.remaining ∧
      (∀ x ∈ items, x.2.Good need desc ∧ Ranked desc (x.1 :: x.2.remaining)) ∧
      hold'.n = hold.n+(items.map fun x => x.2.held).sum ∧
      (items.map fun x => x.2.cap need).sum ≤ (srcs.map fun s => s.cap need).sum := by
  induction srcs generalizing hold with
  | nil => exact ⟨hold,[],rfl,rfl,rfl,by simp,by simp,Int.le_refl 0⟩
  | cons s rest ih =>
    obtain ⟨mine,nothing⟩ := good s mem_cons_self
    have tail : ∀ s ∈ rest, s.Good need desc ∧ s.held = 0 := (forall_mem_cons.mp good).2
    have positive : 0 ≤ (rest.map fun s => s.cap need).sum := by
      apply sum_nonneg
      intro x member
      obtain ⟨s,_,rfl⟩ := List.mem_map.mp member
      exact s.cap_nonneg need
    have some_ := s.cap_nonneg need
    simp only [map_cons,sum_cons] at room
    obtain ⟨hold₁,next,moved,limited,ended,onward⟩ := Source.advance_moves mine hold (by omega)
    rw [startAll,moved]
    dsimp only
    cases next with
    | none =>
      obtain ⟨empty,freed⟩ := ended rfl
      obtain ⟨hold₂,items,started,limited₂,whole,items_good,sum,caps⟩ := ih tail hold₁ (by omega)
      rw [started]
      refine ⟨hold₂,items,rfl,limited₂.trans limited,?_,items_good,by omega,?_⟩
      · rw [flatMap_cons,empty,whole,nil_append]
      · simp only [map_cons,sum_cons]; omega
    | some found =>
      obtain ⟨t,s'⟩ := found
      obtain ⟨split,same,good',cap⟩ := onward t s' rfl
      have fits := good'.fits
      obtain ⟨hold₂,items,started,limited₂,whole,items_good,sum,caps⟩ := ih tail hold₁ (by omega)
      rw [started]
      refine ⟨hold₂,(t,s') :: items,rfl,limited₂.trans limited,?_,?_,?_,?_⟩
      · rw [flatMap_cons,flatMap_cons,whole,split]
      · rw [forall_mem_cons]
        refine ⟨⟨good',?_⟩,items_good⟩
        rw [← split]
        exact mine.sorted
      · simp only [map_cons,sum_cons]; omega
      · simp only [map_cons,sum_cons,cap]; omega

theorem length_remaining_le : (srcs.flatMap Source.remaining).length ≤ (srcs.flatMap Source.unread).length := by
  rw [length_flatMap,length_flatMap]
  refine sum_le_sum fun s _ => ?_
  cases s with
  | store rest => exact le_rfl
  | archive s => exact List.length_filter_le _ _

theorem merge_examine (good : ∀ s ∈ srcs, s.Good need desc ∧ s.held = 0)
    (room : (srcs.map fun s => s.cap need).sum ≤ limit) (sorted : Ranked desc l)
    (whole : l.Perm (srcs.flatMap Source.remaining)) (c : Collector) :
    merge u srcs desc ⟨0,limit⟩ c = .ok (examine u c l) := by
  obtain ⟨hold,items,started,limited,same,items_good,sum,caps⟩ := startAll_merging srcs good ⟨0,limit⟩ (by dsimp only; omega)
  dsimp only at limited sum
  rw [merge,started]
  apply mergeLoop_examine u (mergeFuel srcs) c
  · have shorter := length_remaining_le srcs
    have length := whole.length_eq
    unfold mergeFuel
    omega
  · refine ⟨sorted,?_,fun x member => (items_good x member).1,fun x member => (items_good x member).2,?_,?_⟩
    · rw [same]; exact whole
    · omega
    · omega

end

theorem examine_parts (c : Collector) (going : c.done = false) (l : List Trace) :
    ∃ taken later, l = taken ++ later ∧ (examine u c l).out = c.out ++ taken.filterMap (c.filter.found u) ∧
      ((examine u c l).done = false → later = []) ∧
      ((examine u c l).done → ∃ front t, taken = front ++ [t] ∧ (examine u c l).last = t.key) := by
  induction l generalizing c with
  | nil => exact ⟨[],[],rfl,by simp [examine],fun _ => rfl,by simp [examine,going]⟩
  | cons t rest ih =>
    have filter : (c.offer u t).filter = c.filter := rfl
    have shown : (c.offer u t).out = c.out ++ [t].filterMap (c.filter.found u) := by
      cases matched : c.filter.found u t <;> simp [Collector.offer,matched]
    rw [examine]
    cases done : (c.offer u t).done with
    | true =>
      refine ⟨[t],rest,rfl,shown,?_,?_⟩
      · intro going; simp [done] at going
      · intro _; exact ⟨[],t,rfl,rfl⟩
    | false =>
      obtain ⟨taken,later,rfl,out,ended,stopped⟩ := ih (c.offer u t) done
      refine ⟨t :: taken,later,rfl,?_,ended,?_⟩
      · rw [if_neg (by simp),out,shown,filter,append_assoc,← filterMap_append]; rfl
      · intro finished
        obtain ⟨front,x,rfl,last⟩ := stopped finished
        exact ⟨t :: front,x,rfl,last⟩

end Gateon.TraceSearch
