import Gateon.Traffic.Compress

namespace Gateon.Traffic.Compress
open Go StreamCodec Transition List Option

-- Beside the same handler on a plain writer, with the brotli slots it took.
structure Flight where
  accept : List GoString
  writer : Writer
  plain : Client
  taken : Nat
  returned : Nat
  done : Bool

def Flight.client (f : Flight) : Client := f.writer.client

structure Process where
  gate : Gate
  flights : List Flight

def Process.start (capacity : Nat) : Process := ⟨⟨capacity,0,0⟩,[]⟩

inductive Event where
  | arrive (cfg : CompressConfig) (r : Request) (outer : Header)
  | call (i : Nat) (made : Call)
  | returns (i : Nat)

section
variable (codecs : Coding → Codec UInt8) (u : Tables)

def Writer.call (made : Call) (g : Gate) : Writer → Writer × Gate
  | .direct c => (.direct (c.call made),g)
  | .compressed w => (.compressed (w.call codecs u made g).1,(w.call codecs u made g).2)

def Writer.finish (g : Gate) : Writer → Writer × Gate
  | .direct c => (.direct c.finish,g)
  | .compressed w => (.compressed {(w.close codecs u g).1 with w := (w.close codecs u g).1.w.finish},(w.close codecs u g).2)

def Flight.start (cfg : CompressConfig) (r : Request) (outer : Header) : Flight :=
  ⟨acceptLines r,((compressWithConfig u cfg r (Client.new outer)).map Writer.compressed).getD (.direct (Client.new outer)),Client.new outer,0,0,false⟩

def Process.follow (p : Process) (i : Nat) (f : Flight) (next : Writer × Gate) (plain : Client) (done : Bool) : Process :=
  ⟨next.2,p.flights.set i ⟨f.accept,next.1,plain,f.taken + (next.2.acquired - p.gate.acquired),
    f.returned + (next.2.released - p.gate.released),done⟩⟩

def step (p : Process) : Event → Option Process
  | .arrive cfg r outer => some {p with flights := p.flights ++ [Flight.start u cfg r outer]}
  | .call i made => (p.flights[i]?).bind fun f =>
      if f.done then none else some (p.follow i f (f.writer.call codecs u made p.gate) (f.plain.call made) false)
  | .returns i => (p.flights[i]?).bind fun f =>
      if f.done then none else some (p.follow i f (f.writer.finish codecs u p.gate) f.plain.finish true)

structure Sound (p : Process) : Prop where
  accepted : ∀ f ∈ p.flights, f.done → Acceptable f.accept (labels f.client)
  delivered : ∀ f ∈ p.flights, f.done → Delivered codecs f.client f.plain
  slots : ∀ f ∈ p.flights, f.returned ≤ f.taken ∧ f.taken ≤ 1 ∧ (f.done → f.returned = f.taken)
  gate : p.gate.acquired = (p.flights.map Flight.taken).sum ∧ p.gate.released = (p.flights.map Flight.returned).sum ∧
    p.gate.acquired ≤ p.gate.released + p.gate.capacity

def Careful (p : Process) : Event → Prop
  | .arrive cfg r outer => Negotiable (normalizeCompressionAlgorithm u cfg.algorithm) (acceptLines r) ∧ Fit (acceptLines r) (outer codingKey)
  | .call i (.edit name f) => canonicalMIMEHeaderKey name = codingKey → ∀ flight ∈ p.flights[i]?, flight.writer.Editable flight.accept f
  | .call _ (.writeHeader code) => code ≠ 101
  | _ => True

end

section
variable {codecs : Coding → Codec UInt8}

variable (codecs) in
def Going (f : Flight) : Prop :=
  match f.writer with
  | .direct c => c = f.plain ∧ Fit f.accept (labels c) ∧ f.taken = 0
  | .compressed w => Related codecs f.accept w f.plain ∧ f.taken = w.brotliSlot.toNat

variable (codecs) in
structure FlightInv (f : Flight) : Prop where
  going : f.done = false → Going codecs f ∧ f.returned = 0
  ended : f.done → (Acceptable f.accept (labels f.client) ∧ Delivered codecs f.client f.plain) ∧ f.returned = f.taken ∧ f.taken ≤ 1

variable (codecs) in
structure Inv (p : Process) : Prop where
  flights : ∀ f ∈ p.flights, FlightInv codecs f
  taken : p.gate.acquired = (p.flights.map Flight.taken).sum
  returned : p.gate.released = (p.flights.map Flight.returned).sum
  room : p.gate.acquired ≤ p.gate.released + p.gate.capacity

theorem sum_set {α : Type} {l : List α} {a : α} (here : l[i]? = some a) (b : α) (f : α → Nat) :
    ((l.set i b).map f).sum + f a = (l.map f).sum + f b := by
  induction l generalizing i with
  | nil => cases here
  | cons x rest ih =>
    cases i with
    | zero =>
      cases here
      simp only [set_cons_zero,map_cons,sum_cons]
      omega
    | succ i =>
      have rest := ih (i := i) here
      simp only [set_cons_succ,map_cons,sum_cons]
      omega

theorem follow_inv {next} {p : Process} (inv : Inv codecs p) (here : p.flights[i]? = some f)
    (acquired : p.gate.acquired ≤ next.2.acquired) (released : p.gate.released ≤ next.2.released)
    (room : next.2.acquired ≤ next.2.released + next.2.capacity)
    (kept : FlightInv codecs ⟨f.accept,next.1,plain,f.taken + (next.2.acquired - p.gate.acquired),
      f.returned + (next.2.released - p.gate.released),done⟩) : Inv codecs (p.follow i f next plain done) := by
  have total := sum_set here ⟨f.accept,next.1,plain,f.taken + (next.2.acquired - p.gate.acquired),
    f.returned + (next.2.released - p.gate.released),done⟩
  have taken := total Flight.taken
  have returned := total Flight.returned
  refine ⟨?_,?_,?_,room⟩
  · intro f' mem
    rcases mem_or_eq_of_mem_set mem with old | rfl
    · exact inv.flights f' old
    · exact kept
  · have := inv.taken
    dsimp only [Process.follow] at taken ⊢
    omega
  · have := inv.returned
    dsimp only [Process.follow] at returned ⊢
    omega

variable {u : Tables}

theorem start_flight (negotiable : Negotiable (normalizeCompressionAlgorithm u cfg.algorithm) (acceptLines r))
    (fit : Fit (acceptLines r) (outer codingKey)) : FlightInv codecs (Flight.start u cfg r outer) := by
  refine ⟨fun _ => ⟨?_,rfl⟩,nofun⟩
  unfold Flight.start Going
  cases given : compressWithConfig u cfg r (Client.new outer) with
  | none => exact ⟨rfl,fit,rfl⟩
  | some w =>
    have opened := compress_opens negotiable fit given
    exact ⟨.inl opened,by simp [opened.going.2.2]⟩

theorem call_inv (inv : Inv codecs p) (meets : Careful u p (.call i made)) (here : p.flights[i]? = some f) (going : f.done = false) :
    Inv codecs (p.follow i f (f.writer.call codecs u made p.gate) (f.plain.call made) false) := by
  obtain ⟨before,unreturned⟩ := (inv.flights f (mem_of_getElem? here)).going going
  have edits : ∀ name g, made = .edit name g → canonicalMIMEHeaderKey name = codingKey → f.writer.Editable f.accept g := by
    rintro name g rfl own
    exact meets own f (by rw [here]; rfl)
  have codes : ∀ code, made = .writeHeader code → code ≠ 101 := by rintro code rfl; exact meets
  unfold Going at before
  cases writer : f.writer with
  | direct c =>
    rw [writer] at before edits
    obtain ⟨same,fit,untaken⟩ := before
    refine follow_inv inv here le_rfl le_rfl inv.room ⟨fun _ => ⟨⟨congrArg (Client.call · made) same,?_,?_⟩,?_⟩,
      nofun⟩
    · exact labels_call c fit edits
    · simp [untaken,Writer.call]
    · simp [unreturned,Writer.call]
  | compressed w =>
    rw [writer] at before edits
    obtain ⟨related,slot⟩ := before
    obtain ⟨after,takes⟩ := call_related (u := u) related edits codes p.gate
    refine follow_inv inv here takes.grows (Nat.le_of_eq takes.released.symm) (takes.room inv.room) ⟨fun _ => ⟨⟨after,?_⟩,?_⟩,
      nofun⟩
    · have := takes.acquired
      have := takes.grows
      dsimp only [Writer.call]
      omega
    · have := takes.released
      dsimp only [Writer.call]
      omega

theorem returns_inv (sound : ∀ coding, (codecs coding).Sound) (inv : Inv codecs p) (here : p.flights[i]? = some f) (going : f.done = false) :
    Inv codecs (p.follow i f (f.writer.finish codecs u p.gate) f.plain.finish true) := by
  obtain ⟨before,unreturned⟩ := (inv.flights f (mem_of_getElem? here)).going going
  unfold Going at before
  cases writer : f.writer with
  | direct c =>
    rw [writer] at before
    obtain ⟨same,fit,untaken⟩ := before
    have label : labels c.finish = labels c := labels_writeHeader c 200
    refine follow_inv inv here le_rfl le_rfl inv.room ⟨(absurd ·.symm Bool.false_ne_true),fun _ => ⟨⟨?_,?_⟩,?_,?_⟩⟩
    · exact label ▸ fit.1
    · rw [← same]; exact ⟨none,by simp [Flight.client,Writer.finish,Writer.client],rfl⟩
    · simp [Writer.finish,untaken,unreturned]
    · simp [Writer.finish,untaken]
  | compressed w =>
    rw [writer] at before
    obtain ⟨related,slot⟩ := before
    have closed := close_spec (u := u) sound related p.gate
    have := closed.acquired
    have := closed.released
    have := closed.capacity
    have := inv.room
    refine follow_inv inv here ?_ ?_ ?_ ⟨(absurd ·.symm Bool.false_ne_true),fun _ => ⟨⟨closed.accepted,closed.delivered⟩,?_,?_⟩⟩ <;>
      dsimp only [Writer.finish]
    · omega
    · omega
    · omega
    · omega
    · have := w.brotliSlot.toNat_le; omega

theorem step_inv (sound : ∀ coding, (codecs coding).Sound) (inv : Inv codecs p) (meets : Careful u p e)
    (ran : step codecs u p e = some q) : Inv codecs q := by
  cases e with
  | arrive cfg r outer =>
    cases ran
    have first : FlightInv codecs (Flight.start u cfg r outer) := start_flight meets.1 meets.2
    refine ⟨forall_snoc inv.flights first,?_,?_,inv.room⟩
    · simpa [Flight.start] using inv.taken
    · simpa [Flight.start] using inv.returned
  | call i made =>
    obtain ⟨f,here,ran⟩ := bind_eq_some_iff.mp ran
    obtain ⟨going,⟨⟩⟩ := ite_none_left_eq_some.mp ran
    exact call_inv inv meets here (Bool.eq_false_iff.mpr going)
  | returns i =>
    obtain ⟨f,here,ran⟩ := bind_eq_some_iff.mp ran
    obtain ⟨going,⟨⟩⟩ := ite_none_left_eq_some.mp ran
    exact returns_inv sound inv here (Bool.eq_false_iff.mpr going)

theorem Inv.sound (inv : Inv codecs p) : Sound codecs p := by
  refine ⟨fun f mem done => ((inv.flights f mem).ended done).1.1,fun f mem done => ((inv.flights f mem).ended done).1.2,?_,
    inv.taken,inv.returned,inv.room⟩
  intro f mem
  cases done : f.done with
  | true =>
    obtain ⟨_,same,once⟩ := (inv.flights f mem).ended done
    exact ⟨Nat.le_of_eq same,once,fun _ => same⟩
  | false =>
    obtain ⟨going,unreturned⟩ := (inv.flights f mem).going done
    have once : f.taken ≤ 1 := by
      unfold Going at going
      split at going
      · omega
      · rename_i w _
        have := w.brotliSlot.toNat_le
        omega
    exact ⟨by omega,once,nofun⟩

theorem compress_sound (sound : ∀ coding, (codecs coding).Sound) (capacity : Nat) :
    ∀ p, Reached (step codecs u) (Careful u) (Process.start capacity) p → Sound codecs p := by
  intro p path
  exact (reached_invariant (Inv codecs) ⟨fun _ mem => absurd mem not_mem_nil,rfl,rfl,Nat.zero_le _⟩ (step_inv sound) path).sound

instance : ∀ p e, Decidable (Careful u p e) := by
  intros
  unfold Careful
  split <;> infer_instance

end

def marked : Codec UInt8 := ⟨fun _ op => op.written,fun _ => [0],fun body => some body.dropLast⟩

theorem marked_outputFrom (past ops : List (Op UInt8)) : marked.outputFrom past ops = written ops := by
  induction ops generalizing past with
  | nil => rfl
  | cons op rest ih => rw [Codec.outputFrom,ih]; rfl

theorem marked_sound : marked.Sound := by
  intro ops
  have output : marked.output ops = written ops := marked_outputFrom [] ops
  rw [output]
  exact congrArg some dropLast_concat

def sampleConfig : CompressConfig := ⟨4,[],[],0,[]⟩
def sampleRequest (accept : List GoString) : Request :=
  ⟨lit "GET",lit "/",Header.ofLines (accept.map fun line => (lit "Accept-Encoding",line)),false⟩
def sampleArrival (accept : List GoString) : Event := .arrive sampleConfig (sampleRequest accept) fun _ => []

def sampleRun (accept : GoString) : List Event :=
  [sampleArrival [accept],sampleArrival [accept],.call 0 (.writeHeader 200),.call 0 (.write (lit "first page")),
    .call 1 (.write (lit "second page")),.call 1 .flush,.returns 0,.returns 1]

def shown (p : Process) : List (List GoString × Nat × Nat) := p.flights.map fun f => (labels f.client,f.taken,f.returned)

theorem compress_sound_run :
    ∃ p, runAllowed (step (fun _ => marked) .ascii) (Careful .ascii) (Process.start 1) (sampleRun (lit "gzip;q=0.5, br")) = some p ∧
      shown p = [([lit "br"],1,1),([lit "gzip"],0,0)] ∧ Sound (fun _ => marked) p :=
  shown_run (by decide) fun p path => compress_sound (fun _ => marked_sound) 1 p path

-- A weight of 0 is not read; a label set late is sent over plain bytes.
theorem compress_unsound :
    (∃ p, run (step (fun _ => marked) .ascii) (Process.start 1) [sampleArrival [lit "gzip;q=0"],.call 0 .flush,.returns 0] = some p ∧
      ¬ Sound (fun _ => marked) p) ∧
    (∃ p, run (step (fun _ => marked) .ascii) (Process.start 1) (sampleRun (lit "br, gzip;q=0")) = some p ∧ ¬ Sound (fun _ => marked) p) ∧
    ∃ p, run (step (fun _ => marked) .ascii) (Process.start 1) [sampleArrival [lit "gzip"],.call 0 (.writeHeader 200),
        .call 0 (.edit (lit "Content-Encoding") fun _ => [lit "gzip"]),.call 0 (.write (lit "page")),.returns 0] = some p ∧
      ¬ Sound (fun _ => marked) p := by
  refine ⟨⟨_,rfl,fun sound => ?_⟩,⟨_,rfl,fun sound => ?_⟩,⟨_,rfl,fun sound => ?_⟩⟩
  · exact absurd (sound.accepted _ mem_cons_self rfl) (by decide)
  · exact absurd (sound.accepted _ (mem_cons_of_mem _ mem_cons_self) rfl) (by decide)
  obtain ⟨applied,named,body⟩ := sound.delivered _ mem_cons_self rfl
  cases applied with
  | none => exact absurd named (by decide)
  | some coding => exact absurd body (by cases coding <;> decide)

end Gateon.Traffic.Compress
