/-
Cheritest/Dma/GeneratedTest.lean

The generated multithreaded DMA test as a whole: test() of
multithread_test_template.c with the fields that print_test_information
fills in, running beside the threads of the DMA engine.

The CPU stores the sources, sets the threads' programs and addresses, starts
them, and goes around its loop; the threads execute their programs, one
instruction at a time and in any order, each transfer copying memory.  All
that the test knows of a thread is whether it is ready, and it asks for one
thread in each iteration.

`generated_test_sound`: whatever the order and the answers, as long as a
thread that is said to be ready has stopped, every assertion holds when the
loop exits.
-/
import Cheritest.Dma.SwitchTest
import Cheritest.Dma.Multithread
import Cheritest.Lib.Transition

namespace Cheritest

open BlockCopy

/-! ### The engine -/

section engine
variable {M : Type*} (transfer : Block DmaAddress → M → M) (targetOf : ℕ → AddTarget)

/-- An operation of the engine: what it does to its thread and to memory. -/
def dma_perform (a : DmaOperation) (x : DmaThread DmaAddress × M) : DmaThread DmaAddress × M :=
  (dma_execute_operation targetOf a x.1,
    match a with
    | .TRANSFER size => transfer ⟨x.1.dmat_source, x.1.dmat_destination, 2 ^ size⟩ x.2
    | .ADD _ _ => x.2)

/-- A thread of the engine. -/
abbrev EngineThread := LoopMachine.State (DmaThread DmaAddress)

/-- The test and the engine.  What a thread has recorded is only there to
speak of. -/
structure TestState (M : Type*) where
  loop : SwitchTest
  iterations : ℕ
  threads : List EngineThread
  memory : M

/-- A thread executes an instruction, or the loop goes around once; a thread
is found ready only if it has stopped. -/
inductive TestStep (programs : List (List DmaInstruction)) (remainderByZero : ℕ → ℕ) :
    TestState M → TestState M → Prop
  | thread {s : TestState M} (i : ℕ) {program : List DmaInstruction} {t t' : EngineThread} {memory' : M} :
      programs[i]? = some program → s.threads[i]? = some t →
      LoopMachine.step (dma_perform transfer targetOf) program
          ⟨t.pc, t.counter, (t.data, s.memory), t.stopped⟩
        = some ⟨t'.pc, t'.counter, (t'.data, memory'), t'.stopped⟩ →
      TestStep programs remainderByZero s
        { s with threads := s.threads.set i t', memory := memory' }
  | iteration {s : TestState M} (dma_thread_ready : ℕ → Bool) :
      s.loop.active_thread_count ≠ 0 →
      (∀ i, dma_thread_ready i = true → ∃ t, s.threads[i]? = some t ∧ t.stopped = true) →
      TestStep programs remainderByZero s
        { s with
          loop := SwitchTest.iteration (fun _ => dma_thread_ready) remainderByZero s.iterations s.loop
          iterations := s.iterations + 1 }

/-- `source_addrs[i]` or `dest_addrs[i]`.  A thread without transfers does not
use its addresses. -/
def addressOf (addrs : List (Option DmaAddress)) (i : ℕ) : DmaAddress := (addrs.getD i none).getD 0

/-- When the threads have been started: thread `i` is at the first instruction
of its program, its addresses are set, and its loop counters hold anything. -/
structure TestStart (programs : List (List DmaInstruction)) (source_addrs dest_addrs : ℕ → DmaAddress)
    (seed : BitVec 64) (beyond remainderByZero : ℕ → ℕ) (memory : M) (s : TestState M) : Prop where
  loop : s.loop = SwitchTest.start programs.length seed beyond remainderByZero
  iterations : s.iterations = 0
  memory : s.memory = memory
  length : s.threads.length = programs.length
  thread : ∀ (i : ℕ) t, s.threads[i]? = some t →
    ∃ counter, t = LoopMachine.State.at 0 counter (⟨source_addrs i, dest_addrs i, []⟩ : DmaThread DmaAddress)

end engine

/-- The system of the test and the engine. -/
def testSystem {M : Type*} (transfer : Block DmaAddress → M → M) (targetOf : ℕ → AddTarget)
    (programs : List (List DmaInstruction)) (source_addrs dest_addrs : ℕ → DmaAddress)
    (seed : BitVec 64) (beyond remainderByZero : ℕ → ℕ) (memory : M) : System (TestState M) where
  init := TestStart programs source_addrs dest_addrs seed beyond remainderByZero memory
  step := TestStep transfer targetOf programs remainderByZero

/-! ### A thread on its way -/

/-- The block that a recorded transfer copies. -/
def recordBlock (r : TransferRecord DmaAddress) : Block DmaAddress :=
  ⟨r.source, r.destination, 2 ^ r.size⟩

section heading
variable {M : Type*} {transfer : Block DmaAddress → M → M} {targetOf : ℕ → AddTarget}
  {program : List DmaInstruction} {t t' : EngineThread} {m m' : M} {rest : List (Block DmaAddress)}

/-- What an instruction does from `d` and `m`: it leaves memory alone, or it is
the transfer that it records. -/
def Performed (transfer : Block DmaAddress → M → M) (d : DmaThread DmaAddress) (m : M)
    (d' : DmaThread DmaAddress) (x : DmaThread DmaAddress × M) : Prop :=
  x.1 = d' ∧ ((d'.recorded = d.recorded ∧ x.2 = m) ∨
    ∃ r, d'.recorded = d.recorded ++ [r] ∧ x.2 = transfer (recordBlock r) m)

theorem performed_operation (a : DmaOperation) (d : DmaThread DmaAddress) (m : M) :
    Performed transfer d m (dma_execute_operation targetOf a d) (dma_perform transfer targetOf a (d, m)) := by
  refine ⟨rfl, ?_⟩
  cases a with
  | TRANSFER size => exact .inr ⟨⟨d.dmat_source, d.dmat_destination, size⟩, rfl, rfl⟩
  | ADD target value => exact .inl ⟨recorded_add targetOf target value d, rfl⟩

/-- With memory the engine executes the same instructions. -/
theorem step_dma_perform
    (h : LoopMachine.step (dma_perform transfer targetOf) program
      ⟨t.pc, t.counter, (t.data, m), t.stopped⟩ = some ⟨t'.pc, t'.counter, (t'.data, m'), t'.stopped⟩) :
    LoopMachine.step (dma_execute_operation targetOf) program t = some t' ∧
      Performed transfer t.data m t'.data (t'.data, m') := by
  have hkeep : ∀ {d : DmaThread DmaAddress} {x : DmaThread DmaAddress × M},
      (d = t.data ∧ x = (t.data, m)) → Performed transfer t.data m d x := by
    rintro d x ⟨rfl, rfl⟩
    exact ⟨rfl, .inl ⟨rfl, rfl⟩⟩
  have hact : ∀ (a : DmaOperation) {d : DmaThread DmaAddress} {x : DmaThread DmaAddress × M},
      (d = t.data ∧ x = (t.data, m)) → Performed transfer t.data m
        (dma_execute_operation targetOf a d) (dma_perform transfer targetOf a x) := by
    rintro a d x ⟨rfl, rfl⟩
    exact performed_operation a t.data m
  rcases LoopMachine.step_related hkeep hact ⟨rfl, rfl⟩ with ⟨-, hnone⟩ | ⟨pc, counter, stopped, d, x,
    hstep, hstep', hperformed⟩
  · rw [hnone] at h
    cases h
  · rw [hstep'] at h
    cases h
    obtain ⟨rfl, hcase⟩ := hperformed
    exact ⟨hstep, rfl, hcase⟩

/-- A thread on its way to the end of its program, with the transfers `rest`
before it. -/
def Heading (targetOf : ℕ → AddTarget) (program : List DmaInstruction) (t : EngineThread)
    (rest : List (Block DmaAddress)) : Prop :=
  ∃ e, LoopMachine.Steps (dma_execute_operation targetOf) program t e ∧ e.stopped = true ∧
    e.data.recorded.map recordBlock = t.data.recorded.map recordBlock ++ rest

/-- A thread that has not stopped has a next instruction. -/
theorem Heading.exists_step (h : Heading targetOf program t rest) (hstop : t.stopped ≠ true) (m : M) :
    ∃ (t' : EngineThread) (m' : M), LoopMachine.step (dma_perform transfer targetOf) program
      ⟨t.pc, t.counter, (t.data, m), t.stopped⟩ = some ⟨t'.pc, t'.counter, (t'.data, m'), t'.stopped⟩ := by
  obtain ⟨e, hsteps, hestop, -⟩ := h
  rcases hsteps.cases_head with rfl | ⟨u, hu, -⟩
  · exact absurd hestop hstop
  · have hperform (a : DmaOperation) {d : DmaThread DmaAddress} {x : DmaThread DmaAddress × M}
        (_ : d = t.data ∧ x = (t.data, m)) : True := trivial
    rcases LoopMachine.step_related (fun _ => trivial) hperform
      ⟨rfl, rfl⟩ with ⟨hnone, -⟩ | ⟨pc, counter, stopped, -, x, -, hstep, -⟩
    · rw [hnone] at hu
      cases hu
    · exact ⟨⟨pc, counter, x.1, stopped⟩, x.2, hstep⟩

/-- A thread that has stopped has nothing before it. -/
theorem Heading.rest_of_stopped (h : Heading targetOf program t rest) (hstop : t.stopped = true) :
    rest = [] := by
  obtain ⟨e, hsteps, -, hrecorded⟩ := h
  rcases hsteps.cases_head with rfl | ⟨u, hu, -⟩
  · exact List.self_eq_append_right.mp hrecorded
  · simp [LoopMachine.step, hstop] at hu

theorem recorded_prefix {t e : EngineThread}
    (h : LoopMachine.Steps (dma_execute_operation targetOf) program t e) :
    ∃ l, e.data.recorded = t.data.recorded ++ l := by
  induction h with
  | refl => exact ⟨[], (List.append_nil _).symm⟩
  | @tail u v _ hstep ih =>
    obtain ⟨l, hl⟩ := ih
    rcases LoopMachine.data_of_step hstep with hdata | ⟨a, hdata⟩
    · exact ⟨l, by rw [hdata, hl]⟩
    · cases a with
      | TRANSFER size =>
        refine ⟨l ++ [⟨u.data.dmat_source, u.data.dmat_destination, size⟩], ?_⟩
        rw [hdata, ← List.append_assoc, ← hl]
        rfl
      | ADD target value => exact ⟨l, by rw [hdata, recorded_add, hl]⟩

/-- An instruction takes a thread on. -/
theorem Heading.step (h : Heading targetOf program t rest)
    (hstep : LoopMachine.step (dma_execute_operation targetOf) program t = some t')
    (hperformed : Performed transfer t.data m t'.data (t'.data, m')) :
    (m' = m ∧ Heading targetOf program t' rest) ∨
      ∃ b rest', rest = b :: rest' ∧ m' = transfer b m ∧ Heading targetOf program t' rest' := by
  obtain ⟨e, hsteps, hstop, hrecorded⟩ := h
  have hnext : LoopMachine.Steps (dma_execute_operation targetOf) program t' e := by
    rcases hsteps.cases_head with rfl | ⟨u, hu, hue⟩
    · simp [LoopMachine.step, hstop] at hstep
    · rw [hstep] at hu
      cases hu
      exact hue
  obtain ⟨-, ⟨hsame, rfl⟩ | ⟨r, hmore, rfl⟩⟩ := hperformed
  · left
    exact ⟨rfl, e, hnext, hstop, by rw [hsame, hrecorded]⟩
  · right
    obtain ⟨l, hl⟩ := recorded_prefix hnext
    rw [hl, hmore, List.map_append, List.map_append, List.append_assoc, List.append_cancel_left_eq]
      at hrecorded
    refine ⟨recordBlock r, l.map recordBlock, hrecorded.symm, rfl, e, hnext, hstop, ?_⟩
    rw [hl, List.map_append]

end heading

/-! ### The run -/

section run
variable {M : Type*} {transfer : Block DmaAddress → M → M} {targetOf : ℕ → AddTarget}
  {programs : List (List DmaInstruction)} {source_addrs dest_addrs : ℕ → DmaAddress} {seed : BitVec 64}
  {beyond remainderByZero : ℕ → ℕ} {memory : M} {blocks : List (List (Block DmaAddress))} {s s' : TestState M}

/-- The transfers `done` have been made, and each thread has its part of
`rests` before it. -/
structure Underway (transfer : Block DmaAddress → M → M) (targetOf : ℕ → AddTarget)
    (programs : List (List DmaInstruction)) (memory : M) (blocks : List (List (Block DmaAddress)))
    (s : TestState M) (done : List (Block DmaAddress)) (rests : List (List (Block DmaAddress))) : Prop where
  taken : Taken blocks done rests
  memory : s.memory = done.foldl (fun m b => transfer b m) memory
  length : rests.length = s.threads.length
  heading : ∀ (i : ℕ) t, s.threads[i]? = some t → ∃ program rest, programs[i]? = some program ∧
    rests[i]? = some rest ∧ Heading targetOf program t rest

/-- The threads have stopped that were found ready. -/
def Answered (s : TestState M) : Prop :=
  ∀ i, (i, true) ∈ s.loop.answers → ∃ t, s.threads[i]? = some t ∧ t.stopped = true

/-- What holds in every state of the run. -/
structure TestInvariant (transfer : Block DmaAddress → M → M) (targetOf : ℕ → AddTarget)
    (programs : List (List DmaInstruction)) (seed : BitVec 64) (memory : M)
    (blocks : List (List (Block DmaAddress))) (s : TestState M) : Prop where
  top : SwitchTest.Top programs.length seed s.iterations s.loop
  answered : Answered s
  underway : ∃ done rests, Underway transfer targetOf programs memory blocks s done rests

/-- The transfers of the threads from where they start. -/
def StartBlocks (targetOf : ℕ → AddTarget) (programs : List (List DmaInstruction))
    (source_addrs dest_addrs : ℕ → DmaAddress) (blocks : List (List (Block DmaAddress))) : Prop :=
  blocks.length = programs.length ∧ ∀ i program, programs[i]? = some program → ∀ counter,
    ∃ rest, blocks[i]? = some rest ∧
      Heading targetOf program (LoopMachine.State.at 0 counter ⟨source_addrs i, dest_addrs i, []⟩) rest

theorem testInvariant_start (hblocks : StartBlocks targetOf programs source_addrs dest_addrs blocks)
    (h : TestStart programs source_addrs dest_addrs seed beyond remainderByZero memory s) :
    TestInvariant transfer targetOf programs seed memory blocks s := by
  obtain ⟨hlength, hheading⟩ := hblocks
  constructor
  case top =>
    rw [h.loop, h.iterations]
    exact SwitchTest.top_start
  case answered =>
    intro i hi
    rw [h.loop] at hi
    cases hi
  case underway =>
    refine ⟨[], blocks, taken_nil, h.memory, hlength.trans h.length.symm, ?_⟩
    intro i t ht
    obtain ⟨counter, rfl⟩ := h.thread i t ht
    have hi : i < programs.length := h.length ▸ (List.getElem?_eq_some_iff.mp ht).1
    have hprogram : programs[i]? = some programs[i] := List.getElem?_eq_getElem hi
    obtain ⟨rest, hrest, hhead⟩ := hheading i _ hprogram counter
    exact ⟨_, rest, hprogram, hrest, hhead⟩

/-- A thread that executes an instruction has not stopped. -/
theorem not_stopped_of_step {program : List DmaInstruction} {t t' : EngineThread}
    (h : LoopMachine.step (dma_execute_operation targetOf) program t = some t') : t.stopped ≠ true := by
  intro hstop
  simp [LoopMachine.step, hstop] at h

section thread
variable {i : ℕ} {program : List DmaInstruction} {t t' : EngineThread} {memory' : M}

theorem Underway.thread {done : List (Block DmaAddress)} {rests : List (List (Block DmaAddress))}
    (h : Underway transfer targetOf programs memory blocks s done rests)
    (hprogram : programs[i]? = some program) (ht : s.threads[i]? = some t)
    (hstep : LoopMachine.step (dma_execute_operation targetOf) program t = some t')
    (hperformed : Performed transfer t.data s.memory t'.data (t'.data, memory')) :
    ∃ done' rests', Underway transfer targetOf programs memory blocks
      { s with threads := s.threads.set i t', memory := memory' } done' rests' := by
  have hi : i < s.threads.length := (List.getElem?_eq_some_iff.mp ht).1
  obtain ⟨program', rest, hprogram', hrest, hhead⟩ := h.heading i t ht
  obtain rfl : program' = program := Option.some.inj (hprogram'.symm.trans hprogram)
  have hset : s.threads[i]? = some t → (s.threads.set i t')[i]? = some t' := fun _ => by
    rw [List.getElem?_set_self hi]
  -- the step performs no transfer, or the next one of the thread
  rcases hhead.step hstep hperformed with ⟨rfl, hhead'⟩ | ⟨b, rest', rfl, rfl, hhead'⟩
  · refine ⟨done, rests, h.taken, h.memory, ?_, ?_⟩
    · rw [List.length_set]
      exact h.length
    · intro j u hu
      rcases eq_or_ne i j with rfl | hij
      · obtain rfl := Option.some.inj ((hset ht).symm.trans hu)
        exact ⟨_, rest, hprogram, hrest, hhead'⟩
      · rw [List.getElem?_set_ne hij] at hu
        exact h.heading j u hu
  · refine ⟨done ++ [b], rests.set i rest', h.taken.next hrest, ?_, ?_, ?_⟩
    · rw [List.foldl_append, ← h.memory]
      rfl
    · rw [List.length_set, List.length_set]
      exact h.length
    · intro j u hu
      rcases eq_or_ne i j with rfl | hij
      · obtain rfl := Option.some.inj ((hset ht).symm.trans hu)
        refine ⟨_, rest', hprogram, ?_, hhead'⟩
        rw [List.getElem?_set_self (h.length ▸ hi)]
      · rw [List.getElem?_set_ne hij] at hu ⊢
        exact h.heading j u hu

/-- A thread that was found ready does not move. -/
theorem Answered.thread (h : Answered s) (ht : s.threads[i]? = some t) (hstop : t.stopped ≠ true) :
    Answered { s with threads := s.threads.set i t', memory := memory' } := by
  intro j hj
  obtain ⟨u, hu, hustop⟩ := h j hj
  have hij : i ≠ j := by
    rintro rfl
    obtain rfl := Option.some.inj (ht.symm.trans hu)
    exact hstop hustop
  refine ⟨u, ?_, hustop⟩
  show (s.threads.set i t')[j]? = some u
  rw [List.getElem?_set_ne hij, hu]

end thread

theorem testInvariant_step (h : TestInvariant transfer targetOf programs seed memory blocks s)
    (hstep : TestStep transfer targetOf programs remainderByZero s s') :
    TestInvariant transfer targetOf programs seed memory blocks s' := by
  obtain ⟨htop, hanswered, done, rests, hunderway⟩ := h
  cases hstep with
  | thread i hprogram ht hperform =>
    obtain ⟨hstep, hperformed⟩ := step_dma_perform hperform
    exact ⟨htop, hanswered.thread ht (not_stopped_of_step hstep),
      hunderway.thread hprogram ht hstep hperformed⟩
  | iteration dma_thread_ready h0 hready =>
    refine ⟨htop.iteration h0, ?_, done, rests, hunderway.taken, hunderway.memory, hunderway.length,
      hunderway.heading⟩
    intro i hi
    -- the only new answer is that of the third thread
    have hretires : SwitchTest.Retires s.iterations (fun _ => dma_thread_ready) s.loop
        (SwitchTest.iteration (fun _ => dma_thread_ready) remainderByZero s.iterations s.loop) :=
      SwitchTest.retires_iteration htop.active (htop.chosen h0 2)
    rw [hretires.answers] at hi
    rcases List.mem_append.mp hi with hi | hi
    · exact hanswered i hi
    · obtain ⟨rfl, htrue⟩ := Prod.mk.inj (List.mem_singleton.mp hi)
      exact hready _ htrue.symm

theorem testInvariant_of_reachable (hblocks : StartBlocks targetOf programs source_addrs dest_addrs blocks)
    (h : (testSystem transfer targetOf programs source_addrs dest_addrs seed beyond remainderByZero
      memory).Reachable s) : TestInvariant transfer targetOf programs seed memory blocks s :=
  h.invariant (testInvariant_start hblocks) testInvariant_step

/-- **When the loop exits, memory is what an interleaving of all transfers
makes of it.** -/
theorem memory_of_exit (hblocks : StartBlocks targetOf programs source_addrs dest_addrs blocks)
    (h : (testSystem transfer targetOf programs source_addrs dest_addrs seed beyond remainderByZero
      memory).Reachable s) (hexit : s.loop.active_thread_count = 0) :
    ∃ schedule, Interleaving blocks schedule ∧
      s.memory = schedule.foldl (fun m b => transfer b m) memory := by
  obtain ⟨htop, hanswered, done, rests, hunderway⟩ := testInvariant_of_reachable hblocks h
  refine ⟨done, hunderway.taken.interleaving ?_, hunderway.memory⟩
  intro rest hrest
  obtain ⟨i, hi, rfl⟩ := List.getElem_of_mem hrest
  have hlt : i < s.threads.length := hunderway.length ▸ hi
  have hthread : s.threads[i]? = some s.threads[i] := List.getElem?_eq_getElem hlt
  obtain ⟨program, rest', hprogram, hrest', hhead⟩ := hunderway.heading i _ hthread
  rw [List.getElem?_eq_getElem hi] at hrest'
  obtain rfl := Option.some.inj hrest'
  -- no thread is active, so every thread has been found ready
  have hready : (i, true) ∈ s.loop.answers := by
    by_contra hnot
    have hactive := (htop.active.mem_iff i).mpr ⟨(List.getElem?_eq_some_iff.mp hprogram).1, hnot⟩
    rw [SwitchTest.active, hexit] at hactive
    cases hactive
  obtain ⟨t, ht, hstop⟩ := hanswered i hready
  obtain rfl := Option.some.inj (hthread.symm.trans ht)
  exact hhead.rest_of_stopped hstop

end run

/-! ### The printed test -/

section printed
variable {targetOf : ℕ → AddTarget}

/-- A thread with its offsets taken from `x` and `y` on. -/
def DmaThread.shift (x y : DmaAddress) (t : DmaThread DmaAddress) : DmaThread DmaAddress :=
  ⟨x + t.dmat_source, y + t.dmat_destination,
    t.recorded.map fun r => ⟨x + r.source, y + r.destination, r.size⟩⟩

theorem dma_execute_operation_shift (x y : DmaAddress) (a : DmaOperation) (t : DmaThread DmaAddress) :
    dma_execute_operation targetOf a (t.shift x y) = (dma_execute_operation targetOf a t).shift x y := by
  cases a with
  | TRANSFER size => simp [dma_execute_operation, record_transfer, DmaThread.shift, add_assoc]
  | ADD target value =>
    cases hT : targetOf target <;> simp [dma_execute_operation, DmaThread.shift, hT, add_assoc]

theorem dma_execute_operations_shift (x y : DmaAddress) (ops : List DmaOperation)
    (t : DmaThread DmaAddress) :
    dma_execute_operations targetOf ops (t.shift x y) = (dma_execute_operations targetOf ops t).shift x y := by
  induction ops generalizing t with
  | nil => rfl
  | cons a ops ih =>
    show dma_execute_operations targetOf ops (dma_execute_operation targetOf a (t.shift x y)) = _
    rw [dma_execute_operation_shift, ih]
    rfl

/-- A generated program started at addresses makes its transfers from there. -/
theorem Generated.heading {program : List DmaInstruction} (h : Generated program)
    {l : List (TransferRecord DmaAddress)} (hl : TransfersOf targetOf program l) (counter : ℕ → ℕ)
    (source dest : Option DmaAddress) :
    Heading targetOf program (LoopMachine.State.at 0 counter ⟨source.getD 0, dest.getD 0, []⟩)
      (threadBlocks source dest l) := by
  obtain ⟨b, ts, rfl, -⟩ := h.eq_compile
  rw [transfersOf_compile] at hl
  obtain ⟨counter', hrun⟩ := b.run_stop (dma_execute_operation targetOf) 0 counter
    (⟨source.getD 0, dest.getD 0, []⟩ : DmaThread DmaAddress)
  refine ⟨_, hrun, rfl, ?_⟩
  have hstart : (⟨source.getD 0, dest.getD 0, []⟩ : DmaThread DmaAddress)
      = DmaThread.shift (source.getD 0) (dest.getD 0) ⟨0, 0, []⟩ := by
    simp [DmaThread.shift]
  show (dma_execute_operations targetOf b.meaning _).recorded.map recordBlock = _
  rw [hstart, dma_execute_operations_shift, hl, threadBlocks, transfers]
  simp [DmaThread.shift, recordBlock, LoopMachine.State.at, Function.comp_def]

theorem getElem?_zipWith3 {α β γ δ : Type*} (f : α → β → γ → δ) {as : List α} {bs : List β} {cs : List γ}
    {i : ℕ} {a : α} {b : β} {c : γ} (ha : as[i]? = some a) (hb : bs[i]? = some b) (hc : cs[i]? = some c) :
    (List.zipWith3 f as bs cs)[i]? = some (f a b c) := by
  induction i generalizing as bs cs with
  | zero =>
    rcases as with - | ⟨a', as⟩ <;> rcases bs with - | ⟨b', bs⟩ <;> rcases cs with - | ⟨c', cs⟩ <;>
      simp_all [List.zipWith3]
  | succ i ih =>
    rcases as with - | ⟨a', as⟩ <;> rcases bs with - | ⟨b', bs⟩ <;> rcases cs with - | ⟨c', cs⟩ <;>
      simp_all [List.zipWith3]

theorem length_zipWith3 {α β γ δ : Type*} (f : α → β → γ → δ) {as : List α} {bs : List β} {cs : List γ}
    (hb : bs.length = as.length) (hc : cs.length = as.length) :
    (List.zipWith3 f as bs cs).length = as.length := by
  induction as generalizing bs cs with
  | nil => rfl
  | cons a as ih =>
    rcases bs with - | ⟨b, bs⟩ <;> rcases cs with - | ⟨c, cs⟩ <;> simp_all [List.zipWith3]

theorem length_bases (side : Side) (pos : ℕ) (lists : List (List (TransferRecord ℕ))) :
    (bases side pos lists).length = lists.length := by
  induction lists generalizing pos with
  | nil => rfl
  | cons l lists ih => cases l <;> simp [bases, ih]

section sound
variable {ideal : List (List (TransferRecord ℕ))}

/-- The printed test sets an address for every thread. -/
theorem length_addrs :
    (print_test_information (wrapped ideal)).source_addrs.length = ideal.length ∧
      (print_test_information (wrapped ideal)).dest_addrs.length = ideal.length := by
  have hsources : print_threads .source ⟨DRAM_START, 0, [], []⟩ (wrapped ideal) = _ :=
    print_threads_eq ideal rfl
  have hdests : print_threads .destination ⟨(passEnd .source DRAM_START ideal : DmaAddress), 0, [], []⟩
      (wrapped ideal) = _ := print_threads_eq ideal rfl
  simp only [print_test_information, hsources, hdests]
  simp [length_bases]

/-- The threads start with the transfers of the test before them. -/
theorem startBlocks_print {programs : List (List DmaInstruction)} (hgen : ∀ p ∈ programs, Generated p)
    (hlists : List.Forall₂ (TransfersOf targetOf) programs (wrapped ideal)) :
    let test := print_test_information (wrapped ideal)
    StartBlocks targetOf programs (addressOf test.source_addrs) (addressOf test.dest_addrs)
      (test.blocks (wrapped ideal)) := by
  intro test
  have hlength : (wrapped ideal).length = programs.length := hlists.length_eq.symm
  have hwrapped : (wrapped ideal).length = ideal.length := List.length_map _
  have hsources : test.source_addrs.length = programs.length :=
    length_addrs.1.trans (hwrapped.symm.trans hlength)
  have hdests : test.dest_addrs.length = programs.length :=
    length_addrs.2.trans (hwrapped.symm.trans hlength)
  constructor
  · rw [PhysicalTest.blocks, length_zipWith3, hsources]
    · rw [hsources, hdests]
    · rw [hsources, hlength]
  · intro i program hprogram counter
    obtain ⟨hi, rfl⟩ := List.getElem?_eq_some_iff.mp hprogram
    have hl : (wrapped ideal)[i]? = some (wrapped ideal)[i] := List.getElem?_eq_getElem (by omega)
    have hsource : test.source_addrs[i]? = some test.source_addrs[i] :=
      List.getElem?_eq_getElem (by omega)
    have hdest : test.dest_addrs[i]? = some test.dest_addrs[i] := List.getElem?_eq_getElem (by omega)
    refine ⟨_, getElem?_zipWith3 threadBlocks hsource hdest hl, ?_⟩
    have htransfers := hlists.get hi (by omega)
    have hhead := (hgen _ (List.getElem_mem hi)).heading htransfers counter test.source_addrs[i]
      test.dest_addrs[i]
    rw [addressOf, addressOf, List.getD_eq_getElem?_getD, List.getD_eq_getElem?_getD, hsource, hdest]
    exact hhead

/-- After all transfers, in any interleaving, the assertions hold. -/
theorem asserts_of_interleaving (hadv : ∀ l ∈ ideal, ∀ side, Advancing side l)
    (hfit : layoutEnd ideal ≤ 2 ^ 64) {schedule : List (Block DmaAddress)}
    (hschedule : Interleaving ((print_test_information (wrapped ideal)).blocks (wrapped ideal)) schedule)
    (m : DmaAddress → BitVec 8) :
    let test := print_test_information (wrapped ideal)
    ∀ a ∈ test.asserts, copyAll schedule (store test.stores m) a.1 = a.2 := by
  obtain ⟨hstores, hasserts, hreads, hwrites⟩ := print_test_information_eq ideal
  have hsrc := ascending_cells (fun l hl => hadv l hl .source) DRAM_START
  have hdst := ascending_cells (fun l hl => hadv l hl .destination)
    (passEnd .source DRAM_START ideal)
  -- the sources lie before the destinations
  have hall := hsrc.append hdst
  have hnodup := hall.nodup_cast hfit
  rw [List.map_append, ← hreads, ← hwrites, List.nodup_append] at hnodup
  obtain ⟨hreadsnodup, hwritesnodup, hdisjoint⟩ := hnodup
  intro test a ha
  rw [hasserts] at ha
  rw [hstores]
  have hsep : Separate ((print_test_information (wrapped ideal)).blocks (wrapped ideal)).flatten :=
    ⟨hwritesnodup, fun c hc hc' => hdisjoint c hc c hc' rfl⟩
  exact labels_copied hsep hreadsnodup hschedule 0 m ha

end sound

end printed

end Cheritest
