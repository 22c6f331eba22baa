/-
Cheritest/Lib/HandOver.lean

Handing over blocks through one shared pointer.

The producer prepares one block after the other: it clears the block, makes it
ready, lets the pointer point to it and waits until it has been taken.  The
consumer reads the pointer, then the block that it points to, and takes the
block if it is ready.  Between the two reads any time may pass, so that the
block it reads need not be the one that the pointer points to by then.

If no block is prepared twice in a row, the consumer never reads a block that
has been cleared (`Inv.holds_ne`): the producer has waited for a read of the
pointer behind the last block.  And the events are whole rounds, each block
being taken once before the next one is cleared (`Inv.events`).
-/
import Cheritest.Lib.Transition
import Mathlib.Logic.Function.Basic
import Mathlib.Data.List.Range
import Mathlib.Data.List.Flatten

namespace HandOver

/-! ### The protocol -/

/-- The status of a block. -/
inductive Status
  | cleared
  | ready
  | taken
  deriving DecidableEq

/-- What the producer does next. -/
inductive Phase
  | clear
  | ready
  | publish
  | wait
  deriving DecidableEq

/-- The consumer is waiting for a first block, is about to read the pointer,
has read it, is about to take a block, has stopped or has failed. -/
inductive Consumer (β : Type*)
  | waiting
  | idle
  | holds (b : β)
  | takes (b : β)
  | stopped
  | failed

/-- What is written to memory. -/
inductive Event (β : Type*)
  | cleared (b : β)
  | readied (b : β)
  | published (b : β)
  | taken (b : β)

structure State (β : Type*) where
  ptr : Option β
  status : β → Status
  round : ℕ
  phase : Phase
  consumer : Consumer β
  events : List (Event β)

variable {β : Type*}

section protocol
variable [DecidableEq β]

namespace State

variable (s : State β) (b : β)

def clear : State β :=
  { s with
    status := Function.update s.status b .cleared
    phase := .ready
    events := s.events ++ [.cleared b] }

def makeReady : State β :=
  { s with
    status := Function.update s.status b .ready
    phase := .publish
    events := s.events ++ [.readied b] }

def publish : State β :=
  { s with ptr := some b, phase := .wait, events := s.events ++ [.published b] }

def take : State β :=
  { s with
    status := Function.update s.status b .taken
    consumer := .idle
    events := s.events ++ [.taken b] }

end State

/-- The steps, where `block r` is the block of round `r`. -/
inductive Step (block : ℕ → β) : State β → State β → Prop
  | clear {s} : s.phase = .clear → Step block s (s.clear (block s.round))
  | ready {s} : s.phase = .ready → Step block s (s.makeReady (block s.round))
  | publish {s} : s.phase = .publish → Step block s (s.publish (block s.round))
  | next {s} : s.phase = .wait → s.status (block s.round) = .taken →
      Step block s { s with round := s.round + 1, phase := .clear }
  | start {s b} : s.consumer = .waiting → s.ptr = some b → Step block s { s with consumer := .idle }
  | look {s b} : s.consumer = .idle → s.ptr = some b → Step block s { s with consumer := .holds b }
  | fail {s b} : s.consumer = .holds b → s.status b = .cleared →
      Step block s { s with consumer := .failed }
  | see {s b} : s.consumer = .holds b → s.status b = .ready →
      Step block s { s with consumer := .takes b }
  | pass {s b} : s.consumer = .holds b → s.status b = .taken →
      Step block s { s with consumer := .idle }
  | take {s b} : s.consumer = .takes b → Step block s (s.take b)
  | stop {s} : s.consumer = .idle → Step block s { s with consumer := .stopped }

/-- Nothing has been handed over yet. -/
def init : State β where
  ptr := none
  status _ := .cleared
  round := 0
  phase := .clear
  consumer := .waiting
  events := []

/-- The protocol as a system. -/
def system (block : ℕ → β) : System (State β) where
  init s := s = init
  step := Step block

end protocol

/-! ### The invariant -/

/-- The events of one round. -/
def round (b : β) : List (Event β) := [.cleared b, .readied b, .published b, .taken b]

/-- The events of the first `k` rounds. -/
def rounds (block : ℕ → β) (k : ℕ) : List (Event β) :=
  (List.range k).flatMap fun r => round (block r)

theorem rounds_succ (block : ℕ → β) (k : ℕ) :
    rounds block (k + 1) = rounds block k ++ round (block k) := by
  rw [rounds, List.range_succ, List.flatMap_append, List.flatMap_singleton]
  rfl

/-- A consumer that has finished with block `b`, or still looks at it. -/
def Rests (b : β) (c : Consumer β) : Prop := c = .idle ∨ c = .stopped ∨ c = .holds b

/-- No block is on offer: there has been none, or the last one has been taken. -/
def Between (block : ℕ → β) (s : State β) : Prop :=
  s.round = 0 ∧ s.ptr = none ∧ s.consumer = .waiting ∨
    ∃ r, s.round = r + 1 ∧ s.ptr = some (block r) ∧ s.status (block r) = .taken ∧
      Rests (block r) s.consumer

/-- The block of this round is on offer.  The consumer may still look at the
one before. -/
def Offered (block : ℕ → β) (s : State β) : Prop :=
  s.status (block s.round) = .ready ∧
    s.events ++ [.taken (block s.round)] = rounds block (s.round + 1) ∧
    (s.consumer = .waiting ∨ Rests (block s.round) s.consumer ∨
      s.consumer = .takes (block s.round) ∨
      ∃ r, s.round = r + 1 ∧ s.consumer = .holds (block r) ∧ s.status (block r) = .taken)

/-- The block of this round has been taken. -/
def Taken (block : ℕ → β) (s : State β) : Prop :=
  s.status (block s.round) = .taken ∧ s.events = rounds block (s.round + 1) ∧
    Rests (block s.round) s.consumer

/-- What holds at all times, by what the producer does next. -/
def Inv (block : ℕ → β) (s : State β) : Prop :=
  match s.phase with
  | .clear => Between block s ∧ s.events = rounds block s.round
  | .ready => Between block s ∧ s.status (block s.round) = .cleared ∧
      s.events = rounds block s.round ++ [.cleared (block s.round)]
  | .publish => Between block s ∧ s.status (block s.round) = .ready ∧
      s.events = rounds block s.round ++ [.cleared (block s.round), .readied (block s.round)]
  | .wait => s.ptr = some (block s.round) ∧ (Offered block s ∨ Taken block s)

section inv
variable {block : ℕ → β} {s s' : State β} {b : β}

theorem inv_init : Inv block init := ⟨.inl ⟨rfl, rfl, rfl⟩, rfl⟩

theorem Inv.clear (h : Inv block s) (hp : s.phase = .clear) :
    Between block s ∧ s.events = rounds block s.round := by
  unfold Inv at h
  rwa [hp] at h

theorem Inv.ready (h : Inv block s) (hp : s.phase = .ready) :
    Between block s ∧ s.status (block s.round) = .cleared ∧
      s.events = rounds block s.round ++ [.cleared (block s.round)] := by
  unfold Inv at h
  rwa [hp] at h

theorem Inv.publish (h : Inv block s) (hp : s.phase = .publish) :
    Between block s ∧ s.status (block s.round) = .ready ∧
      s.events = rounds block s.round ++ [.cleared (block s.round), .readied (block s.round)] := by
  unfold Inv at h
  rwa [hp] at h

theorem Inv.wait (h : Inv block s) (hp : s.phase = .wait) :
    s.ptr = some (block s.round) ∧ (Offered block s ∨ Taken block s) := by
  unfold Inv at h
  rwa [hp] at h

/-- A step of the consumer while no block is on offer. -/
theorem Between.consumer (h : Between block s) {c : Consumer β}
    (hc : ∀ r, s.ptr = some (block r) → s.status (block r) = .taken → Rests (block r) s.consumer →
      Rests (block r) c) (hw : s.ptr = none → s.consumer = .waiting → c = .waiting) :
    Between block { s with consumer := c } := by
  rcases h with ⟨hr, hp, hw'⟩ | ⟨r, hr, hp, hs, hrest⟩
  · exact .inl ⟨hr, hp, hw hp hw'⟩
  · exact .inr ⟨r, hr, hp, hs, hc r hp hs hrest⟩

/-- A consumer that rests holds no other block. -/
theorem Rests.eq_of_holds {c : Consumer β} {b b' : β} (h : Rests b c) (hc : c = .holds b') : b' = b := by
  subst hc
  rcases h with h | h | h
  · cases h
  · cases h
  · exact Consumer.holds.inj h

/-- **The consumer never holds a block that has been cleared.** -/
theorem Inv.holds_ne (h : Inv block s) (hc : s.consumer = .holds b) : s.status b ≠ .cleared := by
  have hbetween (hb : Between block s) : s.status b ≠ .cleared := by
    rcases hb with ⟨-, -, hw⟩ | ⟨r, -, -, hs, hrest⟩
    · rw [hc] at hw
      cases hw
    · rw [hrest.eq_of_holds hc, hs]
      simp
  rcases hp : s.phase with - | - | - | -
  · exact hbetween (h.clear hp).1
  · exact hbetween (h.ready hp).1
  · exact hbetween (h.publish hp).1
  · rcases (h.wait hp).2 with ⟨hs, -, hw | hrest | ht | ⟨r, -, hh, hs'⟩⟩ | ⟨hs, -, hrest⟩
    · rw [hc] at hw
      cases hw
    · rw [hrest.eq_of_holds hc, hs]
      simp
    · rw [hc] at ht
      cases ht
    · rw [hc] at hh
      rw [Consumer.holds.inj hh, hs']
      simp
    · rw [hrest.eq_of_holds hc, hs]
      simp

/-- The consumer does not fail. -/
theorem Inv.consumer_ne_failed (h : Inv block s) : s.consumer ≠ .failed := by
  intro hc
  have hrests {b' : β} (hr : Rests b' s.consumer) : False := by
    rw [hc] at hr
    rcases hr with hr | hr | hr <;> cases hr
  have hbetween (hb : Between block s) : False := by
    rcases hb with ⟨-, -, hw⟩ | ⟨r, -, -, -, hrest⟩
    · rw [hc] at hw
      cases hw
    · exact hrests hrest
  rcases hp : s.phase with - | - | - | -
  · exact hbetween (h.clear hp).1
  · exact hbetween (h.ready hp).1
  · exact hbetween (h.publish hp).1
  · rcases (h.wait hp).2 with ⟨-, -, hw | hrest | ht | ⟨r, -, hh, -⟩⟩ | ⟨-, -, hrest⟩
    · rw [hc] at hw
      cases hw
    · exact hrests hrest
    · rw [hc] at ht
      cases ht
    · rw [hc] at hh
      cases hh
    · exact hrests hrest

/-- A consumer that is past its wait for a first block finds one. -/
theorem Inv.exists_ptr (h : Inv block s) (hc : s.consumer = .idle) : ∃ b, s.ptr = some b := by
  have hbetween (hb : Between block s) : ∃ b, s.ptr = some b := by
    rcases hb with ⟨-, -, hw⟩ | ⟨r, -, hptr, -, -⟩
    · rw [hc] at hw
      cases hw
    · exact ⟨_, hptr⟩
  rcases hp : s.phase with - | - | - | -
  · exact hbetween (h.clear hp).1
  · exact hbetween (h.ready hp).1
  · exact hbetween (h.publish hp).1
  · exact ⟨_, (h.wait hp).1⟩

/-- While the producer waits, the block is on offer or has been taken. -/
theorem Inv.status_wait (h : Inv block s) (hp : s.phase = .wait) :
    s.status (block s.round) = .ready ∨ s.status (block s.round) = .taken :=
  (h.wait hp).2.imp And.left And.left

/-- A block that is about to be taken is the one on offer. -/
theorem Inv.takes (h : Inv block s) (hc : s.consumer = .takes b) :
    s.phase = .wait ∧ b = block s.round ∧ Offered block s := by
  have hrests {b' : β} (hr : Rests b' s.consumer) : False := by
    rw [hc] at hr
    rcases hr with hr | hr | hr <;> cases hr
  have hbetween (hb : Between block s) : False := by
    rcases hb with ⟨-, -, hw⟩ | ⟨r, -, -, -, hrest⟩
    · rw [hc] at hw
      cases hw
    · exact hrests hrest
  rcases hp : s.phase with - | - | - | -
  · exact (hbetween (h.clear hp).1).elim
  · exact (hbetween (h.ready hp).1).elim
  · exact (hbetween (h.publish hp).1).elim
  · rcases (h.wait hp).2 with ho | ⟨-, -, hrest⟩
    · refine ⟨rfl, ?_, ho⟩
      obtain ⟨-, -, hw | hrest | ht | ⟨r, -, hh, -⟩⟩ := ho
      · rw [hc] at hw
        cases hw
      · exact (hrests hrest).elim
      · exact Consumer.takes.inj (hc.symm.trans ht)
      · rw [hc] at hh
        cases hh
    · exact (hrests hrest).elim

/-- **The events are whole rounds**, as far as they have come. -/
theorem Inv.events (h : Inv block s) : s.events <+: rounds block (s.round + 1) := by
  rw [rounds_succ]
  rcases hp : s.phase with - | - | - | -
  · rw [(h.clear hp).2]
    exact List.prefix_append _ _
  · rw [(h.ready hp).2.2]
    exact (List.prefix_append_right_inj _).mpr ⟨_, rfl⟩
  · rw [(h.publish hp).2.2]
    exact (List.prefix_append_right_inj _).mpr ⟨_, rfl⟩
  · rw [← rounds_succ]
    rcases (h.wait hp).2 with ⟨-, he, -⟩ | ⟨-, he, -⟩
    · exact ⟨_, he⟩
    · exact he ▸ List.prefix_rfl

/-- A step of the consumer that leaves memory alone, while the producer waits. -/
theorem Inv.consumer (h : Inv block s) {c : Consumer β}
    (hbetween : Between block s → Between block { s with consumer := c })
    (hoffered : s.ptr = some (block s.round) → Offered block s →
      Offered block { s with consumer := c })
    (htaken : s.ptr = some (block s.round) → Taken block s → Taken block { s with consumer := c }) :
    Inv block { s with consumer := c } := by
  unfold Inv at h ⊢
  rcases hp : s.phase with - | - | - | - <;> simp only [hp] at h ⊢
  · exact ⟨hbetween h.1, h.2⟩
  · exact ⟨hbetween h.1, h.2⟩
  · exact ⟨hbetween h.1, h.2⟩
  · obtain ⟨hptr, ho | ht⟩ := h
    · exact ⟨hptr, .inl (hoffered hptr ho)⟩
    · exact ⟨hptr, .inr (htaken hptr ht)⟩

end inv

section step
variable [DecidableEq β] {block : ℕ → β} {s s' : State β}

/-- Preparing the next block leaves the last one alone. -/
theorem Between.update (hne : ∀ r, block r ≠ block (r + 1)) (h : Between block s)
    (hround : s'.round = s.round) (hptr : s'.ptr = s.ptr) (hconsumer : s'.consumer = s.consumer)
    {v : Status} (hstatus : s'.status = Function.update s.status (block s.round) v) :
    Between block s' := by
  rcases h with ⟨hr, hp, hc⟩ | ⟨r, hr, hp, hs, hc⟩
  · exact .inl ⟨hround.trans hr, hptr.trans hp, hconsumer.trans hc⟩
  · refine .inr ⟨r, hround.trans hr, hptr.trans hp, ?_, by rw [hconsumer]; exact hc⟩
    rw [hstatus, hr, Function.update_of_ne (hne r)]
    exact hs

/-- **A step preserves the invariant**, if no block is prepared twice in a row. -/
theorem Inv.step (hne : ∀ r, block r ≠ block (r + 1)) (h : Inv block s) (hs : Step block s s') :
    Inv block s' := by
  cases hs with
  | clear hp =>
    obtain ⟨hb, he⟩ := h.clear hp
    exact ⟨hb.update hne rfl rfl rfl rfl, Function.update_self .., congrArg (· ++ _) he⟩
  | ready hp =>
    obtain ⟨hb, -, he⟩ := h.ready hp
    refine ⟨hb.update hne rfl rfl rfl rfl, Function.update_self .., ?_⟩
    show s.events ++ _ = _
    rw [he, List.append_assoc]
    rfl
  | publish hp =>
    -- the block becomes visible; whoever looked at the last one still holds that
    obtain ⟨hb, hs, he⟩ := h.publish hp
    refine ⟨rfl, .inl ⟨hs, ?_, ?_⟩⟩
    · show s.events ++ _ ++ _ = _
      rw [he, rounds_succ, List.append_assoc, List.append_assoc]
      rfl
    · rcases hb with ⟨-, -, hw⟩ | ⟨r, hr, -, hst, hi | hstop | hh⟩
      · exact .inl hw
      · exact .inr (.inl (.inl hi))
      · exact .inr (.inl (.inr (.inl hstop)))
      · exact .inr (.inr (.inr ⟨r, hr, hh, hst⟩))
  | next hp htaken =>
    obtain ⟨hptr, ⟨hready, -⟩ | ⟨hs, he, hrest⟩⟩ := h.wait hp
    · -- the producer goes on only after the block is taken
      rw [hready] at htaken
      cases htaken
    · exact ⟨.inr ⟨s.round, rfl, hptr, hs, hrest⟩, he⟩
  | start hc hptr =>
    refine h.consumer (fun hb => ?_) (fun _ ho => ⟨ho.1, ho.2.1, .inr (.inl (.inl rfl))⟩)
      (fun _ ht => ⟨ht.1, ht.2.1, .inl rfl⟩)
    exact hb.consumer (fun r _ _ _ => .inl rfl) fun hnone _ => by rw [hptr] at hnone; cases hnone
  | look hc hptr =>
    refine h.consumer (fun hb => ?_) (fun hround ho => ?_) (fun hround ht => ?_)
    · refine hb.consumer (fun r hr _ _ => ?_) fun hnone _ => by rw [hptr] at hnone; cases hnone
      rw [hptr] at hr
      exact .inr (.inr (congrArg _ (Option.some.inj hr)))
    · rw [hptr] at hround
      exact ⟨ho.1, ho.2.1, .inr (.inl (.inr (.inr (congrArg _ (Option.some.inj hround)))))⟩
    · rw [hptr] at hround
      exact ⟨ht.1, ht.2.1, .inr (.inr (congrArg _ (Option.some.inj hround)))⟩
  | fail hc hcleared => exact absurd hcleared (h.holds_ne hc)
  | see hc hready =>
    refine h.consumer (fun hb => ?_) (fun _ ho => ?_) (fun _ ht => ?_)
    · refine hb.consumer (fun r _ hs hrest => ?_) fun _ hw => ?_
      · rw [hrest.eq_of_holds hc, hs] at hready
        cases hready
      · rw [hc] at hw
        cases hw
    · obtain ⟨hs, he, hw | hrest | ht | ⟨r, -, hh, hs'⟩⟩ := ho
      · rw [hc] at hw
        cases hw
      · exact ⟨hs, he, .inr (.inr (.inl (congrArg _ (hrest.eq_of_holds hc))))⟩
      · rw [hc] at ht
        cases ht
      · rw [hc] at hh
        rw [Consumer.holds.inj hh, hs'] at hready
        cases hready
    · rw [ht.2.2.eq_of_holds hc, ht.1] at hready
      cases hready
  | pass hc htaken =>
    refine h.consumer (fun hb => ?_) (fun _ ho => ⟨ho.1, ho.2.1, .inr (.inl (.inl rfl))⟩)
      (fun _ ht => ⟨ht.1, ht.2.1, .inl rfl⟩)
    refine hb.consumer (fun r _ _ _ => .inl rfl) fun _ hw => ?_
    rw [hc] at hw
    cases hw
  | take hc =>
    obtain ⟨hp, rfl, hs, he, -⟩ := h.takes hc
    obtain ⟨hptr, -⟩ := h.wait hp
    unfold Inv
    simp only [State.take, hp]
    exact ⟨hptr, .inr ⟨Function.update_self .., he, .inl rfl⟩⟩
  | stop hc =>
    refine h.consumer (fun hb => ?_)
      (fun _ ho => ⟨ho.1, ho.2.1, .inr (.inl (.inr (.inl rfl)))⟩)
      (fun _ ht => ⟨ht.1, ht.2.1, .inr (.inl rfl)⟩)
    refine hb.consumer (fun r _ _ _ => .inr (.inl rfl)) fun _ hw => ?_
    rw [hc] at hw
    cases hw

/-- The invariant holds in every reachable state. -/
theorem inv_of_reachable (hne : ∀ r, block r ≠ block (r + 1))
    (h : (system block).Reachable s) : Inv block s :=
  h.invariant (fun {s} (hi : s = init) => hi ▸ inv_init) fun hi hs => hi.step hne hs

end step

end HandOver
