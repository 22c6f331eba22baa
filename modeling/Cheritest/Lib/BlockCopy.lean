/-
Cheritest/Lib/BlockCopy.lean

Blocks of memory copied by several threads in any order.

An `Interleaving` of a family of lists takes, as long as some list has
elements left, the head of any of them.  A `Block` is a copy of `len` cells
from `src` to `dst`.  If no two blocks write the same cell and none writes a
cell that some block reads, then copying the blocks in any order brings to
every destination what its source held at first; so a labelling of the source
cells is found again at the destinations (`labels_copied`), whatever the
interleaving.
-/
import Mathlib.Data.List.Nodup
import Mathlib.Data.Nat.Cast.Defs

namespace BlockCopy

/-! ### Interleavings -/

/-- The lists taken apart head by head, in any order between them. -/
inductive Interleaving {α : Type*} : List (List α) → List α → Prop
  | done {ls} : (∀ l ∈ ls, l = []) → Interleaving ls []
  | next {ls a as l} (i : ℕ) :
      ls[i]? = some (a :: as) → Interleaving (ls.set i as) l → Interleaving ls (a :: l)

/-- Taking a head takes one element out of the family. -/
theorem flatten_perm_set {α : Type*} {ls : List (List α)} {i : ℕ} {a : α} {as : List α}
    (h : ls[i]? = some (a :: as)) : ls.flatten.Perm (a :: (ls.set i as).flatten) := by
  induction ls generalizing i with
  | nil => simp at h
  | cons l ls ih =>
    cases i with
    | zero =>
      obtain rfl : l = a :: as := by simpa using h
      rw [List.set_cons_zero, List.flatten_cons, List.flatten_cons, List.cons_append]
    | succ i =>
      have hperm := (ih (by simpa using h)).append_left l
      rw [List.set_cons_succ, List.flatten_cons, List.flatten_cons]
      exact hperm.trans List.perm_middle

/-- An interleaving has the elements of the family. -/
theorem Interleaving.perm {α : Type*} {ls : List (List α)} {l : List α} (h : Interleaving ls l) :
    l.Perm ls.flatten := by
  induction h with
  | done hnil => rw [List.flatten_eq_nil_iff.mpr hnil]
  | next i hi _ ih => exact (ih.cons _).trans (flatten_perm_set hi).symm

/-- The elements of `l` have been taken from `ls`, and `rests` are left. -/
def Taken {α : Type*} (ls : List (List α)) (l : List α) (rests : List (List α)) : Prop :=
  ∀ l', Interleaving rests l' → Interleaving ls (l ++ l')

section taken
variable {α : Type*} {ls rests : List (List α)} {l as : List α} {a : α} {i : ℕ}

theorem taken_nil : Taken ls [] ls := fun _ h => h

theorem Taken.next (h : Taken ls l rests) (hi : rests[i]? = some (a :: as)) :
    Taken ls (l ++ [a]) (rests.set i as) := by
  intro l' hl'
  rw [List.append_assoc]
  exact h _ (.next i hi hl')

/-- When nothing is left, what has been taken is an interleaving. -/
theorem Taken.interleaving (h : Taken ls l rests) (hrests : ∀ r ∈ rests, r = []) :
    Interleaving ls l := by
  have hdone := h [] (.done hrests)
  rwa [List.append_nil] at hdone

end taken

/-! ### Blocks -/

/-- A copy of `len` cells. -/
structure Block (A : Type*) where
  src : A
  dst : A
  len : ℕ
  deriving DecidableEq, Repr

variable {A V : Type*} [AddMonoidWithOne A]

namespace Block

/-- The cells read. -/
def reads (b : Block A) : List A := (List.range b.len).map fun j : ℕ => b.src + (j : A)

/-- The cells written. -/
def writes (b : Block A) : List A := (List.range b.len).map fun j : ℕ => b.dst + (j : A)

/-- A block writes as many cells as it reads. -/
theorem length_reads_writes (bs : List (Block A)) :
    (bs.flatMap reads).length = (bs.flatMap writes).length := by
  simp [List.length_flatMap, reads, writes]

variable [DecidableEq A]

/-- Copy the block: all cells are read before any is written. -/
def copy (b : Block A) (m : A → V) : A → V :=
  (List.range b.len).foldl
    (fun m' (j : ℕ) => Function.update m' (b.dst + (j : A)) (m (b.src + (j : A)))) m

omit [AddMonoidWithOne A] in
/-- Writing a list of cells changes no other cell. -/
theorem foldl_update_of_not_mem {β : Type*} (f : β → A) (g : β → V) (l : List β) (m : A → V) {a : A}
    (h : a ∉ l.map f) : l.foldl (fun m' x => Function.update m' (f x) (g x)) m a = m a := by
  induction l generalizing m with
  | nil => rfl
  | cons x l ih =>
    simp only [List.map_cons, List.mem_cons, not_or] at h
    rw [List.foldl_cons, ih _ h.2, Function.update_of_ne h.1]

omit [AddMonoidWithOne A] in
/-- Writing distinct cells leaves in each what was written to it. -/
theorem foldl_update_of_mem {β : Type*} (f : β → A) (g : β → V) (l : List β) (m : A → V)
    (hl : (l.map f).Nodup) {x : β} (h : x ∈ l) :
    l.foldl (fun m' x => Function.update m' (f x) (g x)) m (f x) = g x := by
  induction l generalizing m with
  | nil => cases h
  | cons y l ih =>
    rw [List.map_cons, List.nodup_cons] at hl
    rw [List.foldl_cons]
    rcases List.mem_cons.mp h with rfl | hx
    · rw [foldl_update_of_not_mem f g l _ hl.1, Function.update_self]
    · exact ih _ hl.2 hx

theorem copy_of_not_mem {b : Block A} {m : A → V} {a : A} (h : a ∉ b.writes) : b.copy m a = m a :=
  foldl_update_of_not_mem _ _ _ m h

theorem copy_dst {b : Block A} {m : A → V} (hb : b.writes.Nodup) {j : ℕ} (hj : j < b.len) :
    b.copy m (b.dst + (j : A)) = m (b.src + (j : A)) :=
  foldl_update_of_mem (fun j : ℕ => b.dst + (j : A)) (fun j : ℕ => m (b.src + (j : A))) _ m hb
    (List.mem_range.mpr hj)

end Block

open Block

/-! ### Many blocks -/

/-- No cell is written twice, and none that is read is written. -/
structure Separate (bs : List (Block A)) : Prop where
  writes_nodup : (bs.flatMap writes).Nodup
  reads_kept : ∀ a ∈ bs.flatMap reads, a ∉ bs.flatMap writes

theorem Separate.perm {bs bs' : List (Block A)} (h : Separate bs) (hp : bs.Perm bs') :
    Separate bs' where
  writes_nodup := (hp.flatMap_right _).nodup_iff.mp h.writes_nodup
  reads_kept a ha ha' := h.reads_kept a ((hp.flatMap_right _).mem_iff.mpr ha)
    ((hp.flatMap_right _).mem_iff.mpr ha')

variable [DecidableEq A]

/-- Copy blocks one after the other. -/
def copyAll (bs : List (Block A)) (m : A → V) : A → V := bs.foldl (fun m b => b.copy m) m

theorem copyAll_of_not_mem {bs : List (Block A)} {m : A → V} {a : A}
    (h : a ∉ bs.flatMap writes) : copyAll bs m a = m a := by
  induction bs generalizing m with
  | nil => rfl
  | cons b bs ih =>
    simp only [List.flatMap_cons, List.mem_append, not_or] at h
    show copyAll bs (b.copy m) a = m a
    rw [ih h.2, copy_of_not_mem h.1]

/-- Separate blocks: each destination ends up with what its source held at
first. -/
theorem copyAll_dst {bs : List (Block A)} (h : Separate bs) (m : A → V) {b : Block A} (hb : b ∈ bs)
    {j : ℕ} (hj : j < b.len) : copyAll bs m (b.dst + (j : A)) = m (b.src + (j : A)) := by
  induction bs generalizing m with
  | nil => cases hb
  | cons c bs ih =>
    have hnodup := h.writes_nodup
    rw [List.flatMap_cons, List.nodup_append] at hnodup
    obtain ⟨hc, hbs, hdisj⟩ := hnodup
    have hrest : Separate bs := by
      refine ⟨hbs, fun a ha ha' => h.reads_kept a ?_ ?_⟩
      · exact List.mem_append_right _ ha
      · exact List.mem_append_right _ ha'
    show copyAll bs (c.copy m) (b.dst + (j : A)) = m (b.src + (j : A))
    rcases List.mem_cons.mp hb with rfl | hb
    · have hmem : b.dst + (j : A) ∈ b.writes := List.mem_map_of_mem (List.mem_range.mpr hj)
      rw [copyAll_of_not_mem fun hm => hdisj _ hmem _ hm rfl, copy_dst hc hj]
    · have hsrc : b.src + (j : A) ∈ (c :: bs).flatMap reads :=
        List.mem_flatMap.mpr ⟨b, List.mem_cons_of_mem _ hb, List.mem_map_of_mem (List.mem_range.mpr hj)⟩
      rw [ih hrest _ hb, copy_of_not_mem fun hm => h.reads_kept _ hsrc (List.mem_append_left _ hm)]

/-! ### A copy that overlaps itself -/

/-- The cells at offsets from `lo` to `hi` have been copied, and no other cell
has changed. -/
structure CopiedBetween (dst src : A) (m₀ : A → V) (lo hi : ℕ) (m : A → V) : Prop where
  inside : ∀ i : ℕ, lo ≤ i → i < hi → m (dst + i) = m₀ (src + i)
  outside : ∀ a, (∀ i : ℕ, lo ≤ i → i < hi → a ≠ dst + i) → m a = m₀ a

section overlap
variable {dst src : A} {m₀ m : A → V} {lo hi lo' hi' t k : ℕ}

omit [DecidableEq A] in
theorem copiedBetween_self (dst src : A) (m : A → V) (i : ℕ) : CopiedBetween dst src m i i m :=
  ⟨fun j h₁ h₂ => by omega, fun _ _ => rfl⟩

omit [DecidableEq A] in
theorem mem_writes {b : Block A} {a : A} : a ∈ b.writes ↔ ∃ j < b.len, a = b.dst + (j : A) := by
  simp only [writes, List.mem_map, List.mem_range, eq_comm]

/-- **A block beside what has been copied.**  The block at offset `t` carries
the copy on, upwards or downwards, if its source has not been written yet. -/
theorem CopiedBetween.copy (h : CopiedBetween dst src m₀ lo hi m)
    (hjoin : ∀ i, lo' ≤ i ∧ i < hi' ↔ (lo ≤ i ∧ i < hi) ∨ (t ≤ i ∧ i < t + k))
    (hinj : ∀ i j : ℕ, lo' ≤ i → i < hi' → lo' ≤ j → j < hi' → dst + (i : A) = dst + (j : A) → i = j)
    (hread : ∀ i j : ℕ, t ≤ i → i < t + k → lo ≤ j → j < hi → src + (i : A) ≠ dst + (j : A)) :
    CopiedBetween dst src m₀ lo' hi' (Block.copy ⟨src + t, dst + t, k⟩ m) := by
  have hcast (p : A) (j : ℕ) : p + (t : A) + (j : A) = p + ((t + j : ℕ) : A) := by
    rw [Nat.cast_add, add_assoc]
  -- the new block does not write an address twice
  have hnodup : (writes ⟨src + t, dst + t, k⟩ : List A).Nodup := by
    refine List.Nodup.map_on (fun i hi j hj heq => ?_) List.nodup_range
    simp only [List.mem_range] at hi hj
    simp only [hcast] at heq
    have hti := (hjoin (t + i)).mpr (.inr ⟨by omega, by omega⟩)
    have htj := (hjoin (t + j)).mpr (.inr ⟨by omega, by omega⟩)
    have := hinj _ _ hti.1 hti.2 htj.1 htj.2 heq
    omega
  constructor
  case inside =>
    intro i hlo hhi
    -- a byte of the new block reads what nobody has written yet; an old byte is not overwritten
    by_cases hnew : t ≤ i ∧ i < t + k
    · obtain ⟨j, rfl⟩ := Nat.exists_eq_add_of_le hnew.1
      have hcopy := copy_dst (m := m) hnodup (show j < k by omega)
      simp only [hcast] at hcopy
      rw [hcopy]
      exact h.outside _ fun j' h₁ h₂ => hread _ _ hnew.1 hnew.2 h₁ h₂
    · have hold := ((hjoin i).mp ⟨hlo, hhi⟩).resolve_right hnew
      rw [copy_of_not_mem, h.inside i hold.1 hold.2]
      intro hmem
      obtain ⟨j, hj, heq⟩ := mem_writes.mp hmem
      simp only [hcast] at hj heq
      have htj := (hjoin (t + j)).mpr (.inr ⟨by omega, by omega⟩)
      have := hinj _ _ hlo hhi htj.1 htj.2 heq
      omega
  case outside =>
    intro a ha
    rw [copy_of_not_mem, h.outside a fun i h₁ h₂ => ?_]
    · have hi := (hjoin i).mpr (.inl ⟨h₁, h₂⟩)
      exact ha i hi.1 hi.2
    · intro hmem
      obtain ⟨j, hj, heq⟩ := mem_writes.mp hmem
      simp only [hcast] at hj heq
      have htj := (hjoin (t + j)).mpr (.inr ⟨by omega, by omega⟩)
      exact ha _ htj.1 htj.2 heq

end overlap

/-! ### Labels -/

variable [AddMonoidWithOne V]

/-- Number the cells from `v` on. -/
def labelFrom (v : V) : List A → List (A × V)
  | [] => []
  | a :: as => (a, v) :: labelFrom (v + 1) as

omit [AddMonoidWithOne A] [DecidableEq A] in
theorem labelFrom_append (v : V) (as bs : List A) :
    labelFrom v (as ++ bs) = labelFrom v as ++ labelFrom (v + as.length) bs := by
  induction as generalizing v with
  | nil => simp [labelFrom]
  | cons a as ih =>
    rw [List.cons_append, labelFrom, ih, labelFrom, List.cons_append, List.length_cons, add_assoc,
      ← Nat.cast_one, ← Nat.cast_add, Nat.add_comm]

/-- The cells labelled. -/
def store (lines : List (A × V)) (m : A → V) : A → V :=
  lines.foldl (fun m' x => Function.update m' x.1 x.2) m

omit [AddMonoidWithOne A] [DecidableEq A] in
theorem map_fst_labelFrom (v : V) (as : List A) : (labelFrom v as).map Prod.fst = as := by
  induction as generalizing v with
  | nil => rfl
  | cons a as ih => rw [labelFrom, List.map_cons, ih]

omit [AddMonoidWithOne A] [DecidableEq A] in
/-- The labels depend on the number of cells only. -/
theorem map_snd_labelFrom (v : V) (as : List A) :
    (labelFrom v as).map Prod.snd = (List.range as.length).map fun k : ℕ => v + (k : V) := by
  induction as generalizing v with
  | nil => rfl
  | cons a as ih =>
    rw [labelFrom, List.map_cons, ih, List.length_cons, List.range_succ_eq_map, List.map_cons,
      List.map_map, Nat.cast_zero, add_zero]
    congr 2
    funext k
    rw [Function.comp_apply, Nat.succ_eq_add_one, Nat.add_comm, Nat.cast_add, Nat.cast_one, add_assoc]

omit [AddMonoidWithOne A] [DecidableEq A] in
/-- Two lists of cells running in step get the same labels. -/
theorem labelFrom_in_step {β : Type*} (f g : β → A) (v₀ : V) (xs : List β) {a : A} {v : V}
    (h : (a, v) ∈ labelFrom v₀ (xs.map g)) :
    ∃ x ∈ xs, a = g x ∧ (f x, v) ∈ labelFrom v₀ (xs.map f) := by
  induction xs generalizing v₀ with
  | nil => cases h
  | cons x xs ih =>
    rw [List.map_cons, labelFrom, List.mem_cons] at h
    rw [List.map_cons, labelFrom]
    rcases h with h | h
    · obtain ⟨rfl, rfl⟩ := Prod.mk.inj h
      exact ⟨x, List.mem_cons_self, rfl, List.mem_cons_self⟩
    · obtain ⟨y, hy, rfl, hl⟩ := ih (v₀ + 1) h
      exact ⟨y, List.mem_cons_of_mem _ hy, rfl, List.mem_cons_of_mem _ hl⟩

omit [AddMonoidWithOne A] in
theorem store_of_mem {as : List A} (has : as.Nodup) {v₀ v : V} {a : A} (m : A → V)
    (h : (a, v) ∈ labelFrom v₀ as) : store (labelFrom v₀ as) m a = v :=
  foldl_update_of_mem Prod.fst Prod.snd _ m (by rwa [map_fst_labelFrom]) h

/-- **Labels are found again.**  Label the cells that separate blocks read,
then let threads copy the blocks in any interleaving: the cells that they
write carry the same labels, in the same order. -/
theorem labels_copied {threads : List (List (Block A))} {l : List (Block A)}
    (h : Separate threads.flatten) (hreads : (threads.flatten.flatMap reads).Nodup)
    (hl : Interleaving threads l) (v₀ : V) (m : A → V) {a : A} {v : V}
    (ha : (a, v) ∈ labelFrom v₀ (threads.flatten.flatMap writes)) :
    copyAll l (store (labelFrom v₀ (threads.flatten.flatMap reads)) m) a = v := by
  -- the cells of all blocks, one after the other
  let cells : List (Block A × ℕ) :=
    threads.flatten.flatMap fun b => (List.range b.len).map fun j : ℕ => (b, j)
  have hwrites : threads.flatten.flatMap writes = cells.map fun x => x.1.dst + (x.2 : A) := by
    simp only [cells, List.map_flatMap, List.map_map, Function.comp_def]
    rfl
  have hsame : threads.flatten.flatMap reads = cells.map fun x => x.1.src + (x.2 : A) := by
    simp only [cells, List.map_flatMap, List.map_map, Function.comp_def]
    rfl
  rw [hwrites] at ha
  obtain ⟨⟨b, j⟩, hx, rfl, hlabel⟩ := labelFrom_in_step (fun x => x.1.src + (x.2 : A)) _ v₀ cells ha
  obtain ⟨c, hc, hj⟩ := List.mem_flatMap.mp hx
  obtain ⟨k, hk, hbj⟩ := List.mem_map.mp hj
  obtain ⟨rfl, rfl⟩ := Prod.mk.inj hbj
  rw [← hsame] at hlabel
  show copyAll l _ (c.dst + (k : A)) = v
  rw [copyAll_dst (h.perm hl.perm.symm) _ (hl.perm.mem_iff.mpr hc) (List.mem_range.mp hk)]
  exact store_of_mem hreads m hlabel

end BlockCopy
