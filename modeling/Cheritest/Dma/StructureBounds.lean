/-
Cheritest/Dma/StructureBounds.lean

How large and how deep the trees of random_dma_program_structure are.

The types follow from the draws and two counters, the spaces and the length
so far, and so do all bounds.  Up to the length limit a combined measure of
both counters goes down; at the limit a draw of zero opens another space, and
past it every space is closed (`random_dma_program_structure_terminates`).

The nesting of loops is not bounded by the counters.  The code that is
written for a tree fits the four loop registers if and only if no draw has
placed a loop inside four others (`random_dma_program_structure_fits_iff`);
seed 4501 does (`random_dma_program_structure_4501`).
-/
import Cheritest.Dma.StructureTree
import Cheritest.Dma.Transfers
import Mathlib.Algebra.Order.Ring.Int

namespace Cheritest

open LevelOrder DmaProgramNodeType

/-! ### Draws near the limits -/

section drawn
variable {p : ℕ} {spaces program_length : ℤ}

/-- Past the length limit every space is filled in with an operation. -/
theorem drawn_type_past (h : 12 < program_length) : drawn_type p spaces program_length = DMAPNT_OP := by
  apply if_pos
  simp only [LENGTH_LIMIT, RAND_LIMIT]
  omega

/-- At the limit only a draw of zero does not. -/
theorem drawn_type_at (h : 0 < p) : drawn_type p spaces 12 = DMAPNT_OP := by
  apply if_pos
  simp only [LENGTH_LIMIT, RAND_LIMIT]
  omega

theorem drawn_type_zero_at : drawn_type 0 spaces 12 = DMAPNT_SEQ := by
  simp [drawn_type, LENGTH_LIMIT, SPACE_LIMIT, RAND_LIMIT]

/-- Before the limit the spaces are bounded: no sequence when there are too
many. -/
theorem drawn_type_ne_seq (hlen : program_length < 12) (h : 10 < spaces) :
    drawn_type p spaces program_length ≠ DMAPNT_SEQ := by
  have hneg : RAND_LIMIT * (LENGTH_LIMIT - program_length) * (SPACE_LIMIT - spaces) < 0 := by
    apply mul_neg_of_pos_of_neg
    · simp only [LENGTH_LIMIT, RAND_LIMIT]
      omega
    · simp only [SPACE_LIMIT]
      omega
  have hp : 0 ≤ LENGTH_LIMIT * SPACE_LIMIT * (p : ℤ) := by
    simp only [LENGTH_LIMIT, SPACE_LIMIT]
    omega
  unfold drawn_type
  dsimp only
  split_ifs with h₁ h₂
  · rintro ⟨⟩
  · rintro ⟨⟩
  · exact absurd (hneg.trans_le hp) h₂

/-- A positive draw makes the bound ten. -/
theorem drawn_type_ne_seq_of_pos (hlen : program_length < 12) (h : 10 ≤ spaces) (hp : 0 < p) :
    drawn_type p spaces program_length ≠ DMAPNT_SEQ := by
  have hneg : RAND_LIMIT * (LENGTH_LIMIT - program_length) * (SPACE_LIMIT - spaces) ≤ 0 := by
    apply mul_nonpos_of_nonneg_of_nonpos
    · simp only [LENGTH_LIMIT, RAND_LIMIT]
      omega
    · simp only [SPACE_LIMIT]
      omega
  have hp : 0 < LENGTH_LIMIT * SPACE_LIMIT * (p : ℤ) := by
    simp only [LENGTH_LIMIT, SPACE_LIMIT]
    omega
  unfold drawn_type
  dsimp only
  split_ifs with h₁ h₂
  · rintro ⟨⟩
  · rintro ⟨⟩
  · exact absurd (hneg.trans_lt hp) h₂

end drawn

/-! ### The counters -/

section counters
variable {d : Draws} {k : ℕ}

/-- What an iteration does to the counters. -/
theorem counters_step (d : Draws) (k : ℕ) :
    drawnTypes d k = DMAPNT_OP ∧ (counters d (k + 1)).1 = (counters d k).1 - 1 ∧
        (counters d (k + 1)).2 = (counters d k).2 + 1 ∨
      drawnTypes d k = DMAPNT_LOOP ∧ (counters d (k + 1)).1 = (counters d k).1 ∧
        (counters d (k + 1)).2 = (counters d k).2 + 2 ∨
      drawnTypes d k = DMAPNT_SEQ ∧ (counters d (k + 1)).1 = (counters d k).1 + 1 ∧
        (counters d (k + 1)).2 = (counters d k).2 := by
  rw [counters_succ]
  cases drawnTypes d k with
  | DMAPNT_OP => simp [arity, words]
  | DMAPNT_LOOP => simp [arity, words]
  | DMAPNT_SEQ =>
    simp [arity, words]
    omega

/-- Until the length limit is reached there are at most eleven spaces. -/
theorem spaces_le (h : ∀ k, (counters d k).2 < 12) (k : ℕ) : (counters d k).1 ≤ 11 := by
  induction k with
  | zero =>
    show (1 : ℤ) ≤ 11
    decide
  | succ k ih =>
    rcases counters_step d k with ⟨-, hs, -⟩ | ⟨-, hs, -⟩ | ⟨htype, hs, -⟩
    · omega
    · omega
    · rcases Int.lt_or_le 10 (counters d k).1 with hlt | hle
      · exact absurd htype (drawn_type_ne_seq (h k) hlt)
      · omega

/-- The limit is reached: every iteration makes 13 times the length that is
left plus the spaces that are left smaller. -/
theorem exists_length_ge (d : Draws) : ∃ k, 12 ≤ (counters d k).2 := by
  by_contra hnot
  have hlt : ∀ k, (counters d k).2 < 12 := by
    intro k
    by_contra hk
    exact hnot ⟨k, by omega⟩
  have hmeasure : ∀ k : ℕ, 13 * (12 - (counters d k).2) + (11 - (counters d k).1) ≤ 166 - k := by
    intro k
    induction k with
    | zero =>
      show 13 * (12 - (0 : ℤ)) + (11 - 1) ≤ 166 - (0 : ℕ)
      decide
    | succ k ih =>
      rcases counters_step d k with ⟨-, hs, hl⟩ | ⟨-, hs, hl⟩ | ⟨-, hs, hl⟩ <;> omega
  have h₁ := hmeasure 167
  have h₂ := hlt 167
  have h₃ := spaces_le hlt 167
  omega

/-- Past the limit a space is closed in every iteration. -/
theorem counters_past (h : 12 < (counters d k).2) (j : ℕ) :
    (counters d (k + j)).1 = (counters d k).1 - j ∧ 12 < (counters d (k + j)).2 := by
  induction j with
  | zero => exact ⟨by simp, h⟩
  | succ j ih =>
    have htype : drawnTypes d (k + j) = DMAPNT_OP := drawn_type_past ih.2
    rcases counters_step d (k + j) with ⟨-, hs, hl⟩ | ⟨hloop, -⟩ | ⟨hseq, -⟩
    · rw [← Nat.add_assoc]
      omega
    · rw [htype] at hloop
      cases hloop
    · rw [htype] at hseq
      cases hseq

/-- At the limit draws of zero leave the length as it is. -/
theorem counters_at (h : (counters d k).2 = 12) {j : ℕ} (hzero : ∀ i < j, d (k + i) = 0) :
    (counters d (k + j)).2 = 12 := by
  induction j with
  | zero => exact h
  | succ j ih =>
    have hj := ih fun i hi => hzero i (by omega)
    have htype : drawnTypes d (k + j) = DMAPNT_SEQ := by
      rw [drawnTypes, hj, hzero j (Nat.lt_succ_self j)]
      exact drawn_type_zero_at
    rcases counters_step d (k + j) with ⟨hop, -⟩ | ⟨hloop, -⟩ | ⟨-, -, hl⟩
    · rw [htype] at hop
      cases hop
    · rw [htype] at hloop
      cases hloop
    · rw [← Nat.add_assoc, hl, hj]

/-- A draw that is not zero takes the length past the limit. -/
theorem exists_length_gt (h : ∀ N, ∃ k ≥ N, d k ≠ 0) : ∃ k, 12 < (counters d k).2 := by
  obtain ⟨k, hk⟩ := exists_length_ge d
  rcases Int.lt_or_le 12 (counters d k).2 with hlt | hle
  · exact ⟨k, hlt⟩
  · have h12 : (counters d k).2 = 12 := by omega
    have hex : ∃ j, d (k + j) ≠ 0 := by
      obtain ⟨m, hm, hne⟩ := h k
      exact ⟨m - k, by rwa [Nat.add_sub_cancel' hm]⟩
    -- the first such draw
    let j := Nat.find hex
    have hj := counters_at h12 (j := j) fun i hi => not_not.mp (Nat.find_min hex hi)
    have htype : drawnTypes d (k + j) = DMAPNT_OP := by
      rw [drawnTypes, hj]
      exact drawn_type_at (Nat.pos_of_ne_zero (Nat.find_spec hex))
    rcases counters_step d (k + j) with ⟨-, -, hl⟩ | ⟨hloop, -⟩ | ⟨hseq, -⟩
    · exact ⟨k + j + 1, by omega⟩
    · rw [htype] at hloop
      cases hloop
    · rw [htype] at hseq
      cases hseq

/-- The spaces run out. -/
theorem exists_spaces_le (h : ∀ N, ∃ k ≥ N, d k ≠ 0) : ∃ k, (counters d k).1 ≤ 0 := by
  obtain ⟨k, hk⟩ := exists_length_gt h
  obtain ⟨hs, -⟩ := counters_past hk (counters d k).1.toNat
  exact ⟨_, hs.trans_le (by omega)⟩

/-- The loop exits when the counters say so. -/
theorem exists_exits (h : ∃ k, (counters d k).1 ≤ 0) : ∃ n s, Exits d n s := by
  have hbefore : ∀ i < Nat.find h, 0 < (counters d i).1 :=
    fun i hi => Int.not_le.mp (Nat.find_min h hi)
  obtain ⟨s, hs⟩ := exists_fillings hbefore
  have hexit := Nat.find_spec h
  rw [counters_eq] at hexit
  refine ⟨_, s, hs, ?_⟩
  rw [(filled_of_fillings hs).spaces]
  exact hexit

/-- With positive draws: ten spaces at most, and 23 words once the length
limit is reached. -/
theorem counters_le (h : ∀ k, 0 < d k) (k : ℕ) :
    (counters d k).1 ≤ 10 ∧ ((counters d k).2 < 12 ∨ (counters d k).1 + (counters d k).2 ≤ 23) := by
  induction k with
  | zero =>
    show (1 : ℤ) ≤ 10 ∧ ((0 : ℤ) < 12 ∨ 1 + (0 : ℤ) ≤ 23)
    decide
  | succ k ih =>
    rcases Int.lt_or_le (counters d k).2 12 with hlt | hge
    · rcases counters_step d k with ⟨-, hs, hl⟩ | ⟨-, hs, hl⟩ | ⟨htype, hs, hl⟩
      · omega
      · omega
      · rcases Int.lt_or_le (counters d k).1 10 with hs10 | hs10
        · omega
        · exact absurd htype (drawn_type_ne_seq_of_pos hlt hs10 (h k))
    · have htype : drawnTypes d k = DMAPNT_OP := by
        rcases Int.lt_or_eq_of_le hge with hgt | heq
        · exact drawn_type_past hgt
        · rw [drawnTypes, ← heq]
          exact drawn_type_at (h k)
      rcases counters_step d k with ⟨-, hs, hl⟩ | ⟨hloop, -⟩ | ⟨hseq, -⟩
      · omega
      · rw [htype] at hloop
        cases hloop
      · rw [htype] at hseq
        cases hseq

end counters

/-- **The filling loop terminates.**  It exits for any draws of which
infinitely many are not zero, and positive draws make at most ten spaces at a
time and 23 words in the end. -/
theorem random_dma_program_structure_terminates :
    (∀ d : Draws, (∀ N, ∃ k ≥ N, d k ≠ 0) →
      ∃ fuel s d', random_dma_program_structure fuel d = some (s, d')) ∧
    ∀ d : Draws, (∀ k, 0 < d k) →
      (∀ k s, fillings d k = some s → s.spaces ≤ 10) ∧
      ∀ fuel s d', random_dma_program_structure fuel d = some (s, d') →
        ∃ t, Represents s.heap 0 t ∧ dma_program_length t ≤ 23 := by
  refine ⟨fun d h => ?_, fun d h => ⟨fun k s hs => ?_, fun fuel s d' hreturn => ?_⟩⟩
  · obtain ⟨n, s, hexit⟩ := exists_exits (exists_spaces_le h)
    exact ⟨n, s, _, random_dma_program_structure_eq_some.mpr ⟨n, le_rfl, hexit, rfl⟩⟩
  · have hle := (counters_le h k).1
    rw [counters_eq] at hle
    rw [(filled_of_fillings hs).spaces]
    exact hle
  · obtain ⟨n, -, hexit, -⟩ := random_dma_program_structure_eq_some.mp hreturn
    obtain ⟨t, ht, hlength⟩ := hexit.exists_tree
    have hle := (counters_le h n).2
    have hspaces := hexit.2
    have hfilled := filled_of_fillings hexit.1
    have h0 := hexit.complete.after
    rw [counters_eq] at hle
    rw [hfilled.program_length] at hlength
    refine ⟨t, ht, ?_⟩
    simp only at hle
    omega

/-- All draws are 1. -/
theorem random_dma_program_structure_terminates_one :
    (∃ fuel s d', random_dma_program_structure fuel (fun _ => 1) = some (s, d')) ∧
      ∀ k s, fillings (fun _ => 1) k = some s → s.spaces ≤ 10 :=
  ⟨random_dma_program_structure_terminates.1 (fun _ => 1) fun N => ⟨N, le_rfl, Nat.one_ne_zero⟩,
    (random_dma_program_structure_terminates.2 (fun _ => 1) fun _ => Nat.one_pos).1⟩

/-! ### The nesting of loops -/

/-- How many loops stand around the children of a node that stands inside
`a`. -/
def loopsBelow (a : ℕ) (t : DmaProgramNodeType) : ℕ := if t = DMAPNT_LOOP then a + 1 else a

/-- How many loops stand around the spaces when `k` of them are filled in, the
next space first. -/
def loopsAround (d : Draws) (k : ℕ) : List ℕ := inherited arity (drawnTypes d) loopsBelow 0 k

/-- No draw places a loop inside four others. -/
def LoopsHaveRoom (d : Draws) : Prop :=
  ∀ k l, (loopsAround d k).head? = some l → drawnTypes d k = DMAPNT_LOOP → l < 4

/-- Every `SET` and `LOOP` names one of the four loop registers. -/
def RegistersFit (code : List DmaInstruction) : Prop :=
  ∀ r v, DMA_OP_SET r v ∈ code ∨ DMA_OP_LOOP r v ∈ code → r < 4

/-- A tree that the loop registers can hold. -/
structure FitsRegisters (t : DmaProgramNode) : Prop where
  depth : t.loopDepth ≤ 4
  writes : ∀ ts d, ∃ code rest, write_random_dma_program ts t 0 d = some (code, rest) ∧ RegistersFit code

theorem registersFit_compile {α : LoopMachine.Block DmaOperation} (h : α.depth ≤ 4) :
    RegistersFit (α.compile 0) := by
  rintro r v (hmem | hmem)
  · have := LoopMachine.Block.mem_compile hmem
    simp only at this
    omega
  · have := LoopMachine.Block.mem_compile hmem
    simp only at this
    omega

/-- The nesting is all that matters. -/
theorem fitsRegisters_iff {t : DmaProgramNode} : FitsRegisters t ↔ t.loopDepth ≤ 4 := by
  constructor
  · exact FitsRegisters.depth
  · intro h
    refine ⟨h, fun ts d => ⟨_, _, write_random_dma_program_eq ts d (by omega), ?_⟩⟩
    apply registersFit_compile
    rw [depth_dmapnBlock]
    exact h

/-- A tree may stand inside `b` loops. -/
def FitsInside (b : ℕ) (t : DmaProgramNode) : Prop := b + t.loopDepth ≤ 4

/-- A node may if its children may stand inside the loops around them. -/
theorem fitsInside_node (b : ℕ) (t : DmaProgramNodeType) (cs : List DmaProgramNode)
    (h : cs.length = t.arity) :
    FitsInside b (t.node cs) ↔ loopsBelow b t ≤ 4 ∧ ∀ c ∈ cs, FitsInside (loopsBelow b t) c := by
  cases t with
  | DMAPNT_LOOP =>
    obtain ⟨body, rfl⟩ := List.length_eq_one_iff.mp h
    simp [FitsInside, node, DmaProgramNode.loopDepth, loopsBelow]
    omega
  | DMAPNT_SEQ =>
    obtain ⟨left, right, rfl⟩ := List.length_eq_two.mp h
    simp [FitsInside, node, DmaProgramNode.loopDepth, loopsBelow]
    omega
  | DMAPNT_OP =>
    obtain rfl := List.length_eq_zero_iff.mp h
    simp [FitsInside, node, DmaProgramNode.loopDepth, loopsBelow]

/-- Spaces inside more than four loops come from a draw without room. -/
theorem loopsAround_le {d : Draws} {k : ℕ}
    (h : ∀ i < k, ∀ l, (loopsAround d i).head? = some l → drawnTypes d i = DMAPNT_LOOP → l < 4) :
    ∀ l ∈ loopsAround d k, l ≤ 4 := by
  induction k with
  | zero =>
    intro l hl
    obtain rfl := List.mem_singleton.mp hl
    exact Nat.zero_le 4
  | succ k ih =>
    have hk := ih fun i hi => h i (by omega)
    have hroom := h k (Nat.lt_succ_self k)
    rcases hq : loopsAround d k with - | ⟨b, bs⟩
    · have hnext : loopsAround d (k + 1) = [] := inherited_succ_nil hq
      rw [hnext]
      rintro l ⟨⟩
    · have hnext : loopsAround d (k + 1)
          = bs ++ List.replicate (drawnTypes d k).arity (loopsBelow b (drawnTypes d k)) :=
        inherited_succ hq
      rw [hq] at hk hroom
      rw [hnext]
      intro l hl
      -- the spaces behind the head, or the children of the node that is filled
      rcases List.mem_append.mp hl with hl | hl
      · exact hk l (List.mem_cons_of_mem _ hl)
      · obtain rfl := List.eq_of_mem_replicate hl
        have hb := hk b List.mem_cons_self
        unfold loopsBelow
        split_ifs with hloop
        · exact hroom b rfl hloop
        · exact hb

/-- The loops of the tree nest at most four deep exactly if all draws before
the exit have room. -/
theorem loopDepth_le_iff {d : Draws} {n : ℕ} {s : Filling} (hexit : Exits d n s) {t : DmaProgramNode}
    (hgrows : Grows arity (drawnTypes d) node n 0 [t]) :
    t.loopDepth ≤ 4 ↔ LoopsHaveRoom d := by
  have hlen : (loopsAround d 0).length = [t].length := rfl
  have hiff : List.Forall₂ FitsInside (loopsAround d 0) [t] ↔
      ∀ i, 0 ≤ i → i < n → ∀ b, (loopsAround d i).head? = some b → loopsBelow b (drawnTypes d i) ≤ 4 :=
    hgrows.inherited_iff fitsInside_node hlen
  have hroot : List.Forall₂ FitsInside (loopsAround d 0) [t] ↔ t.loopDepth ≤ 4 := by
    simp [loopsAround, inherited, FitsInside]
  have hcomplete := hexit.complete
  rw [← hroot, hiff]
  constructor
  · intro h k l hl hloop
    -- once the loop has exited there is no next space
    have hk : k < n := by
      by_contra hge
      have hempty : loopsAround d k = [] := inherited_nil hcomplete (Nat.not_lt.mp hge)
      rw [hempty] at hl
      cases hl
    have hle := h k (Nat.zero_le k) hk l hl
    rw [loopsBelow, if_pos hloop] at hle
    exact hle
  · intro h i _ _ b hb
    have hle := loopsAround_le (k := i) (fun j _ => h j) b (List.mem_of_mem_head? hb)
    unfold loopsBelow
    split_ifs with hloop
    · exact h i b hb hloop
    · exact hle

/-- **The programs fit the loop registers** if and only if no draw places a
loop inside four others. -/
theorem random_dma_program_structure_fits_iff {d d' : Draws} {fuel : ℕ} {s : Filling}
    (h : random_dma_program_structure fuel d = some (s, d')) :
    ∃ t, Represents s.heap 0 t ∧ (FitsRegisters t ↔ LoopsHaveRoom d) := by
  obtain ⟨n, -, hexit, -⟩ := random_dma_program_structure_eq_some.mp h
  obtain ⟨t, ht, hgrows⟩ := hexit.exists_represents
  exact ⟨t, ht, fitsRegisters_iff.trans (loopDepth_le_iff hexit hgrows)⟩

/-- All draws are 32767. -/
theorem random_dma_program_structure_fits_iff_loop :
    ∃ t, Represents (((Filling.start.fill_loop 0).advance 0 |>.fill_op 1).advance 1).heap 0 t ∧
      (FitsRegisters t ↔ LoopsHaveRoom fun _ => 32767) := by
  have h : random_dma_program_structure 2 (fun _ => 32767) =
      some (((Filling.start.fill_loop 0).advance 0 |>.fill_op 1).advance 1, fun _ => 32767) := rfl
  exact random_dma_program_structure_fits_iff h

/-- With seed 4501 five loops nest, and the writer's assertion fails. -/
theorem random_dma_program_structure_4501 :
    ∃ fuel s d' t, random_dma_program_structure fuel (seedDraws 4501) = some (s, d') ∧
      Represents s.heap 0 t ∧ ¬ t.loopDepth ≤ 4 ∧ ∀ ts d, write_random_dma_program ts t 0 d = none := by
  have hopen : ∀ i < 10, 0 < (counters (seedDraws 4501) i).1 := by decide
  obtain ⟨s, hs⟩ := exists_fillings hopen
  have hexit : Exits (seedDraws 4501) 10 s := by
    have hlast : (counters (seedDraws 4501) 10).1 = 0 := by decide
    rw [counters_eq] at hlast
    refine ⟨hs, ?_⟩
    rw [(filled_of_fillings hs).spaces]
    exact hlast.le
  obtain ⟨t, ht, hgrows⟩ := hexit.exists_represents
  -- the seventh node is a loop and the fourth loop stands around it
  have hdeep : ¬ t.loopDepth ≤ 4 := by
    rw [loopDepth_le_iff hexit hgrows]
    intro hroom
    exact absurd (hroom 6 4 (by decide) (by decide)) (by decide)
  refine ⟨10, s, _, t, random_dma_program_structure_eq_some.mpr ⟨10, le_rfl, hexit, rfl⟩, ht, hdeep, ?_⟩
  intro ts d
  rcases hw : write_random_dma_program ts t 0 d with - | ⟨code, rest⟩
  · rfl
  · have hle := loopDepth_of_write hw
    omega

end Cheritest
