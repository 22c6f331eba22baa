/-
Cheritest/Dma/Virtualised.lean

The virtual-memory allocation of the multithreaded DMA tests:
print_virtualised_test_information of generate_multithread_dma_test.cpp.

Each thread gets four ranges of 8K double-pages: physical and virtual ones
for its sources and for its destinations.  The first page of a range is drawn
until it is not in the vector of used pages, and then the whole range is
pushed onto the vector.  Only the first page is checked, so ranges of more
than one page may overlap or run over the end of memory.

`allocation_safe_iff` says exactly when an allocation is as it should be:
when every draw, at the moment it is accepted, has room for its whole range
(`Pages.Roomy`), and no transfer goes past the double-page where its thread's
last transfer ends (`Covered`), which holds of every list of transfers of one
size (`covered_of_nondecreasing`).
-/
import Cheritest.Dma.Multithread

namespace Cheritest

/-! ### Drawing page numbers -/

def MIN_PHYS_PAGE : ℕ := 0x08000
def MAX_PHYS_PAGE : ℕ := 0x1FFFF
def VIRT_PAGE_COUNT : ℕ := 0x1FFFFFFFFFFFF

/-- The values of a `uniform_int_distribution`. -/
abbrev Uniform (lo hi : ℕ) := {d : ℕ // lo ≤ d ∧ d ≤ hi}

/-- `in_vector`. -/
def in_vector (to_test : ℕ) : List ℕ → Bool
  | [] => false
  | x :: vector => if x = to_test then true else in_vector to_test vector

/-- Page numbers of one kind: the vector of those used, and the values that
the distribution is going to return. -/
structure Pages (lo hi : ℕ) where
  used_pns : List ℕ
  draws : List (Uniform lo hi)

/-- The pages of a range: `next_addr + j` for `j` from 0 to `usage_pages`. -/
def pageRange (next_addr usage_pages : ℕ) : List ℕ :=
  (List.range (usage_pages + 1)).map fun j => next_addr + j

section pages
variable {lo hi : ℕ}

/-- Draw until the page is not in the vector.  The assertion on virtual pages
always holds of a value of their distribution. -/
def draw_pn (used_pns : List ℕ) : List (Uniform lo hi) → Option (Uniform lo hi × List (Uniform lo hi))
  | [] => none
  | next_addr :: draws =>
      if in_vector next_addr used_pns then draw_pn used_pns draws else some (next_addr, draws)

/-- Reserve a range.  The counter of the pushing loop has 32 bits, so the loop
ends only for fewer than 2^32 - 1 pages. -/
def reserve_pages (usage_pages : ℕ) (s : Pages lo hi) : Option (ℕ × Pages lo hi) :=
  if usage_pages < 2 ^ 32 - 1 then
    (draw_pn s.used_pns s.draws).map fun x =>
      (x.1, ⟨s.used_pns ++ pageRange x.1 usage_pages, x.2⟩)
  else none

end pages

/-! ### The allocation loop -/

/-- `usage_pages` of a thread: how many double-pages lie before the end of its
last transfer. -/
def usage_pages (transfer_list : List (TransferRecord DmaAddress)) : ℕ :=
  match transfer_list.getLast? with
  | none => 0
  | some current =>
      let usage_bytes : DmaAddress :=
        (if current.source > current.destination then current.source else current.destination)
          + (1 : DmaAddress) <<< current.size
      (usage_bytes / 0x2000).toNat

/-- The first pages of a thread's ranges: its entries in `source_phys_pns`,
`dest_phys_pns`, `source_virt_pns` and `dest_virt_pns`. -/
structure ThreadPages where
  source_phys_pn : ℕ
  dest_phys_pn : ℕ
  source_virt_pn : ℕ
  dest_virt_pn : ℕ
  deriving DecidableEq, Repr

/-- The state of the allocation loop. -/
structure Allocation where
  phys : Pages MIN_PHYS_PAGE MAX_PHYS_PAGE
  virt : Pages 0 VIRT_PAGE_COUNT
  threads : List ThreadPages

/-- One iteration. -/
def allocate_thread (s : Allocation) (transfer_list : List (TransferRecord DmaAddress)) :
    Option Allocation := do
  let (source_phys_pn, phys) ← reserve_pages (usage_pages transfer_list) s.phys
  let (dest_phys_pn, phys) ← reserve_pages (usage_pages transfer_list) phys
  let (source_virt_pn, virt) ← reserve_pages (usage_pages transfer_list) s.virt
  let (dest_virt_pn, virt) ← reserve_pages (usage_pages transfer_list) virt
  return ⟨phys, virt,
    s.threads ++ [⟨source_phys_pn, dest_phys_pn, source_virt_pn, dest_virt_pn⟩]⟩

/-- The loop over the threads. -/
def allocate (transfer_lists : List (List (TransferRecord DmaAddress))) (s : Allocation) :
    Option Allocation :=
  transfer_lists.foldlM allocate_thread s

/-- Before the loop. -/
def Allocation.start (phys_draws : List (Uniform MIN_PHYS_PAGE MAX_PHYS_PAGE))
    (virt_draws : List (Uniform 0 VIRT_PAGE_COUNT)) : Allocation :=
  ⟨⟨[], phys_draws⟩, ⟨[], virt_draws⟩, []⟩

/-! ### The TLB -/

/-- What `tlbwr` writes with page mask 0. -/
structure TlbEntry where
  entry_hi : BitVec 64
  entry_lo0 : BitVec 64
  entry_lo1 : BitVec 64
  deriving DecidableEq, Repr

/-- `add_tlb_mapping`. -/
def add_tlb_mapping (virtual_pn physical_pn_0 physical_pn_1 : BitVec 64) : TlbEntry :=
  ⟨virtual_pn <<< 12, physical_pn_0 <<< 6 ||| 7, physical_pn_1 <<< 6 ||| 7⟩

/-- The physical address of a virtual one: the entry is for a pair of 4K
pages, the frame number is above the six flag bits. -/
def TlbEntry.translate (e : TlbEntry) (va : BitVec 64) : Option (BitVec 64) :=
  if va >>> 13 = e.entry_hi >>> 13 then
    some ((if va.getLsbD 12 then e.entry_lo1 else e.entry_lo0) >>> 6 <<< 12
      ||| (va.setWidth 12).setWidth 64)
  else none

/-- The printed calls of `add_tlb_mapping`. -/
def Allocation.tlb (a : Allocation) : List TlbEntry :=
  (a.virt.used_pns.zip a.phys.used_pns).map fun x =>
    add_tlb_mapping (2 * BitVec.ofNat 64 x.1) (2 * BitVec.ofNat 64 x.2)
      (2 * BitVec.ofNat 64 x.2 + 1)

/-! ### Safety -/

/-- The first physical page of one of a thread's regions. -/
def ThreadPages.phys (t : ThreadPages) : Side → ℕ
  | .source => t.source_phys_pn
  | .destination => t.dest_phys_pn

/-- The first virtual page of one of a thread's regions. -/
def ThreadPages.virt (t : ThreadPages) : Side → ℕ
  | .source => t.source_virt_pn
  | .destination => t.dest_virt_pn

/-- The allocation is as the test needs it. -/
structure Allocation.Safe (a : Allocation) (transfer_lists : List (List (TransferRecord DmaAddress))) :
    Prop where
  phys_nodup : a.phys.used_pns.Nodup
  phys_range : ∀ p ∈ a.phys.used_pns, MIN_PHYS_PAGE ≤ p ∧ p ≤ MAX_PHYS_PAGE
  virt_nodup : a.virt.used_pns.Nodup
  /-- Every byte transferred is on a page reserved for its thread. -/
  touched : ∀ l t, (l, t) ∈ transfer_lists.zip a.threads → ∀ side, ∀ r ∈ l, ∀ k < 2 ^ r.size,
    (0x2000 * t.virt side + (r.offset side).toNat + k) / 0x2000
        ∈ pageRange (t.virt side) (usage_pages l) ∧
      (0x2000 * t.phys side + (r.offset side).toNat + k) / 0x2000
        ∈ pageRange (t.phys side) (usage_pages l)
  /-- Every byte of a region's virtual pages has the corresponding physical
  address, and no other. -/
  mapped : ∀ l t, (l, t) ∈ transfer_lists.zip a.threads → ∀ side,
    ∀ o < 0x2000 * (usage_pages l + 1), ∀ pa,
      (∃ e ∈ a.tlb, e.translate (BitVec.ofNat 64 (0x2000 * t.virt side + o)) = some pa) ↔
        pa = BitVec.ofNat 64 (0x2000 * t.phys side + o)

/-! ### Room -/

/-- The next draw that will be accepted has room for its whole range: no page
of it is used, and each is one of the allowed pages. -/
def Pages.HasRoom {lo hi : ℕ} (allowed : ℕ → Prop) (usage_pages : ℕ) (s : Pages lo hi) : Prop :=
  ∀ next_addr draws, draw_pn s.used_pns s.draws = some (next_addr, draws) →
    ∀ j ≤ usage_pages, next_addr + j ∉ s.used_pns ∧ allowed (next_addr + j)

/-- So it is for every range of a sequence. -/
def Pages.Roomy {lo hi : ℕ} (allowed : ℕ → Prop) : List ℕ → Pages lo hi → Prop
  | [], _ => True
  | n :: ns, s => s.HasRoom allowed n ∧
      ∀ next_addr s', reserve_pages n s = some (next_addr, s') → s'.Roomy allowed ns

/-- Where the last transfer of a thread ends. -/
def lastEnd (l : List (TransferRecord DmaAddress)) : ℕ :=
  match l.getLast? with
  | none => 0
  | some r => max r.source.toNat r.destination.toNat + 2 ^ r.size

/-- The numbers of double-pages before the ends of the last transfers, for the
two ranges of each thread. -/
def ranges (transfer_lists : List (List (TransferRecord DmaAddress))) : List ℕ :=
  transfer_lists.flatMap fun l => [lastEnd l / 0x2000, lastEnd l / 0x2000]

/-- The last transfer ends within the address space, and none goes past the
double-page where it ends. -/
structure Covered (l : List (TransferRecord DmaAddress)) : Prop where
  lastEnd_lt : lastEnd l < 2 ^ 64
  within : ∀ r ∈ l, ∀ side, (r.offset side).toNat + 2 ^ r.size ≤ 0x2000 * (lastEnd l / 0x2000 + 1)

section steps
variable {lo hi : ℕ} {allowed : ℕ → Prop} {n d : ℕ} {s s' : Pages lo hi}

/-- What a reservation does. -/
theorem reserve_pages_cases (h : reserve_pages n s = some (d, s')) :
    n < 2 ^ 32 - 1 ∧ lo ≤ d ∧ d ≤ hi ∧ s'.used_pns = s.used_pns ++ pageRange d n ∧
      ∃ hd draws, draw_pn s.used_pns s.draws = some (⟨d, hd⟩, draws) := by
  unfold reserve_pages at h
  split_ifs at h with hn
  obtain ⟨⟨⟨e, he⟩, draws⟩, hdraw, heq⟩ := Option.map_eq_some_iff.mp h
  obtain ⟨rfl, rfl⟩ := Prod.mk.inj heq
  exact ⟨hn, he.1, he.2, rfl, he, draws, hdraw⟩

/-- The pages used so far are distinct and allowed. -/
def Pages.Good (allowed : ℕ → Prop) (s : Pages lo hi) : Prop :=
  s.used_pns.Nodup ∧ ∀ p ∈ s.used_pns, allowed p

theorem nodup_pageRange (d n : ℕ) : (pageRange d n).Nodup := by
  apply List.Nodup.map _ List.nodup_range
  intro j k hjk
  exact Nat.add_left_cancel hjk

/-- A reservation keeps the pages distinct exactly if it had room. -/
theorem good_reserve (h : reserve_pages n s = some (d, s')) :
    s'.Good allowed ↔ s.Good allowed ∧ s.HasRoom allowed n := by
  obtain ⟨-, -, -, hused, hd, draws, hdraw⟩ := reserve_pages_cases h
  have hroom : s.HasRoom allowed n ↔ ∀ j ≤ n, d + j ∉ s.used_pns ∧ allowed (d + j) := by
    constructor
    · intro hr
      exact hr ⟨d, hd⟩ draws hdraw
    · intro hr e ds he
      obtain ⟨rfl, -⟩ := Prod.mk.inj (Option.some.inj (hdraw.symm.trans he))
      exact hr
  rw [hroom, Pages.Good, Pages.Good, hused, List.nodup_append]
  constructor
  · rintro ⟨⟨hold, -, hdisj⟩, hall⟩
    refine ⟨⟨hold, fun p hp => hall p (List.mem_append_left _ hp)⟩, fun j hj => ?_⟩
    have hmem : d + j ∈ pageRange d n := List.mem_map_of_mem (List.mem_range.mpr (by omega))
    exact ⟨fun hu => hdisj _ hu _ hmem rfl, hall _ (List.mem_append_right _ hmem)⟩
  · rintro ⟨⟨hold, hall⟩, hr⟩
    refine ⟨⟨hold, nodup_pageRange d n, ?_⟩, ?_⟩
    · rintro p hp q hq rfl
      obtain ⟨j, hj, rfl⟩ := List.mem_map.mp hq
      exact (hr j (by have := List.mem_range.mp hj; omega)).1 hp
    · intro p hp
      rcases List.mem_append.mp hp with hp | hp
      · exact hall p hp
      · obtain ⟨j, hj, rfl⟩ := List.mem_map.mp hp
        exact (hr j (by have := List.mem_range.mp hj; omega)).2

theorem roomy_cons (h : reserve_pages n s = some (d, s')) (ns : List ℕ) :
    s.Roomy allowed (n :: ns) ↔ s.HasRoom allowed n ∧ s'.Roomy allowed ns := by
  constructor
  · rintro ⟨hr, hrest⟩
    exact ⟨hr, hrest d s' h⟩
  · rintro ⟨hr, hrest⟩
    refine ⟨hr, fun e t he => ?_⟩
    obtain ⟨rfl, rfl⟩ := Prod.mk.inj (Option.some.inj (h.symm.trans he))
    exact hrest

theorem in_vector_iff (x : ℕ) (v : List ℕ) : in_vector x v = true ↔ x ∈ v := by
  induction v with
  | nil => simp [in_vector]
  | cons y v ih =>
    by_cases hxy : y = x
    · simp [in_vector, hxy]
    · simp [in_vector, hxy, ih, Ne.symm hxy]

theorem draw_pn_fresh {used : List ℕ} {draws rest : List (Uniform lo hi)} {e : Uniform lo hi}
    (h : draw_pn used draws = some (e, rest)) : e.val ∉ used := by
  induction draws with
  | nil => cases h
  | cons x draws ih =>
    unfold draw_pn at h
    split_ifs at h with hx
    · exact ih h
    · obtain ⟨rfl, -⟩ := Prod.mk.inj (Option.some.inj h)
      rwa [in_vector_iff] at hx

/-- A range of a single page always has room: the page drawn is the only one,
and it is checked. -/
theorem hasRoom_zero (hallowed : ∀ p, lo ≤ p → p ≤ hi → allowed p) : s.HasRoom allowed 0 := by
  intro e draws he j hj
  obtain rfl : j = 0 := by omega
  exact ⟨draw_pn_fresh he, hallowed _ e.2.1 e.2.2⟩

end steps

/-! ### The loop -/

section loop
variable {transfer_lists : List (List (TransferRecord DmaAddress))}
  {l : List (TransferRecord DmaAddress)} {s s' a : Allocation}

/-- What one iteration does. -/
theorem allocate_thread_cases (h : allocate_thread s l = some s') :
    ∃ (t : ThreadPages) (phys : Pages _ _) (virt : Pages _ _),
      reserve_pages (usage_pages l) s.phys = some (t.source_phys_pn, phys) ∧
      reserve_pages (usage_pages l) phys = some (t.dest_phys_pn, s'.phys) ∧
      reserve_pages (usage_pages l) s.virt = some (t.source_virt_pn, virt) ∧
      reserve_pages (usage_pages l) virt = some (t.dest_virt_pn, s'.virt) ∧
      s'.threads = s.threads ++ [t] := by
  simp only [allocate_thread, bind, pure] at h
  obtain ⟨⟨sp, phys⟩, h₁, h⟩ := Option.bind_eq_some_iff.mp h
  obtain ⟨⟨dp, phys'⟩, h₂, h⟩ := Option.bind_eq_some_iff.mp h
  obtain ⟨⟨sv, virt⟩, h₃, h⟩ := Option.bind_eq_some_iff.mp h
  obtain ⟨⟨dv, virt'⟩, h₄, h⟩ := Option.bind_eq_some_iff.mp h
  obtain rfl := Option.some.inj h
  exact ⟨⟨sp, dp, sv, dv⟩, phys, virt, h₁, h₂, h₃, h₄, rfl⟩

theorem allocate_cons (h : allocate (l :: transfer_lists) s = some a) :
    ∃ s', allocate_thread s l = some s' ∧ allocate transfer_lists s' = some a := by
  rw [allocate, List.foldlM_cons] at h
  exact Option.bind_eq_some_iff.mp h

/-- The pages of either kind end up distinct exactly if every range had
room. -/
theorem good_allocate {allowed₁ allowed₂ : ℕ → Prop} (h : allocate transfer_lists s = some a)
    (hpages : ∀ l ∈ transfer_lists, usage_pages l = lastEnd l / 0x2000) :
    (a.phys.Good allowed₁ ↔ s.phys.Good allowed₁ ∧ s.phys.Roomy allowed₁ (ranges transfer_lists)) ∧
      (a.virt.Good allowed₂ ↔
        s.virt.Good allowed₂ ∧ s.virt.Roomy allowed₂ (ranges transfer_lists)) := by
  induction transfer_lists generalizing s with
  | nil =>
    obtain rfl := Option.some.inj h
    exact ⟨(and_iff_left trivial).symm, (and_iff_left trivial).symm⟩
  | cons l ls ih =>
    obtain ⟨s', hthread, hrest⟩ := allocate_cons h
    obtain ⟨ihp, ihv⟩ := ih hrest fun l' hl' => hpages l' (List.mem_cons_of_mem _ hl')
    obtain ⟨t, phys, virt, h₁, h₂, h₃, h₄, -⟩ := allocate_thread_cases hthread
    rw [hpages l List.mem_cons_self] at h₁ h₂ h₃ h₄
    show (_ ↔ _ ∧ s.phys.Roomy allowed₁ (_ :: _ :: ranges ls)) ∧
      (_ ↔ _ ∧ s.virt.Roomy allowed₂ (_ :: _ :: ranges ls))
    rw [ihp, ihv, good_reserve h₂, good_reserve h₁, good_reserve h₄, good_reserve h₃, roomy_cons h₁,
      roomy_cons h₂, roomy_cons h₃, roomy_cons h₄]
    simp only [and_assoc, and_self]

/-- The double-pages of a region, virtual and physical. -/
def regionPairs (l : List (TransferRecord DmaAddress)) (t : ThreadPages) (side : Side) :
    List (ℕ × ℕ) :=
  (List.range (usage_pages l + 1)).map fun j => (t.virt side + j, t.phys side + j)

/-- Those of a thread. -/
def threadPairs (x : List (TransferRecord DmaAddress) × ThreadPages) : List (ℕ × ℕ) :=
  regionPairs x.1 x.2 .source ++ regionPairs x.1 x.2 .destination

/-- The two vectors stay in step. -/
theorem allocate_in_step (h : allocate transfer_lists s = some a) :
    ∃ ts, a.threads = s.threads ++ ts ∧ ts.length = transfer_lists.length ∧
      a.virt.used_pns = s.virt.used_pns ++ ((transfer_lists.zip ts).flatMap threadPairs).map Prod.fst ∧
      a.phys.used_pns = s.phys.used_pns ++ ((transfer_lists.zip ts).flatMap threadPairs).map Prod.snd := by
  induction transfer_lists generalizing s with
  | nil =>
    obtain rfl := Option.some.inj h
    exact ⟨[], by simp⟩
  | cons l ls ih =>
    obtain ⟨s', hthread, hrest⟩ := allocate_cons h
    obtain ⟨ts, hts, hlength, hvirt, hphys⟩ := ih hrest
    obtain ⟨t, phys, virt, h₁, h₂, h₃, h₄, ht⟩ := allocate_thread_cases hthread
    obtain ⟨-, -, -, hp₁, -⟩ := reserve_pages_cases h₁
    obtain ⟨-, -, -, hp₂, -⟩ := reserve_pages_cases h₂
    obtain ⟨-, -, -, hv₁, -⟩ := reserve_pages_cases h₃
    obtain ⟨-, -, -, hv₂, -⟩ := reserve_pages_cases h₄
    refine ⟨t :: ts, ?_, congrArg (· + 1) hlength, ?_, ?_⟩
    · rw [hts, ht, List.append_assoc, List.singleton_append]
    · rw [hvirt, hv₂, hv₁]
      simp [threadPairs, regionPairs, pageRange, ThreadPages.virt, Function.comp_def]
    · rw [hphys, hp₂, hp₁]
      simp [threadPairs, regionPairs, pageRange, ThreadPages.phys, Function.comp_def]

/-- What holds of every page of a range that may be drawn holds of every page
used. -/
theorem allocate_used {P Q : ℕ → Prop} (h : allocate transfer_lists s = some a)
    (hP : ∀ d j, MIN_PHYS_PAGE ≤ d → d ≤ MAX_PHYS_PAGE → j < 2 ^ 32 → P (d + j))
    (hQ : ∀ d j, 0 ≤ d → d ≤ VIRT_PAGE_COUNT → j < 2 ^ 32 → Q (d + j))
    (hphys : ∀ p ∈ s.phys.used_pns, P p) (hvirt : ∀ p ∈ s.virt.used_pns, Q p) :
    (∀ p ∈ a.phys.used_pns, P p) ∧ ∀ p ∈ a.virt.used_pns, Q p := by
  have hstep : ∀ {lo hi n d : ℕ} {R : ℕ → Prop} {v v' : Pages lo hi},
      (∀ d j, lo ≤ d → d ≤ hi → j < 2 ^ 32 → R (d + j)) → reserve_pages n v = some (d, v') →
      (∀ p ∈ v.used_pns, R p) → ∀ p ∈ v'.used_pns, R p := by
    intro lo hi n d R v v' hR hv hold p hp
    obtain ⟨hn, hlo, hhi, hused, -⟩ := reserve_pages_cases hv
    rw [hused] at hp
    rcases List.mem_append.mp hp with hp | hp
    · exact hold p hp
    · obtain ⟨j, hj, rfl⟩ := List.mem_map.mp hp
      have hj' := List.mem_range.mp hj
      exact hR d j hlo hhi (by omega)
  induction transfer_lists generalizing s with
  | nil =>
    obtain rfl := Option.some.inj h
    exact ⟨hphys, hvirt⟩
  | cons l ls ih =>
    obtain ⟨s', hthread, hrest⟩ := allocate_cons h
    obtain ⟨t, phys, virt, h₁, h₂, h₃, h₄, -⟩ := allocate_thread_cases hthread
    exact ih hrest (hstep hP h₂ (hstep hP h₁ hphys)) (hstep hQ h₄ (hstep hQ h₃ hvirt))

/-- No range of an allocation that ends is as long as the counter. -/
theorem allocate_usage_lt (h : allocate transfer_lists s = some a) :
    ∀ l ∈ transfer_lists, usage_pages l < 2 ^ 32 - 1 := by
  induction transfer_lists generalizing s with
  | nil => simp
  | cons l ls ih =>
    obtain ⟨s', hthread, hrest⟩ := allocate_cons h
    obtain ⟨t, phys, virt, h₁, -⟩ := allocate_thread_cases hthread
    exact List.forall_mem_cons.mpr ⟨(reserve_pages_cases h₁).1, ih hrest⟩

end loop

/-! ### What the transfers touch -/

section touched
variable {l : List (TransferRecord DmaAddress)}

/-- The code's count of double-pages, taken modulo 2^64. -/
theorem usage_pages_eq (l : List (TransferRecord DmaAddress)) :
    usage_pages l = lastEnd l % 2 ^ 64 / 0x2000 := by
  unfold usage_pages lastEnd
  cases l.getLast? with
  | none => rfl
  | some r =>
    have hmax : (if r.source > r.destination then r.source else r.destination).toNat
        = max r.source.toNat r.destination.toNat := by
      split_ifs with h
      · exact (Nat.max_eq_left (Nat.le_of_lt h)).symm
      · exact (Nat.max_eq_right (Nat.not_lt.mp h)).symm
    simp only [BitVec.toNat_udiv, BitVec.toNat_add, one_shiftLeft, BitVec.toNat_ofNat, hmax]
    congr 1
    exact Nat.add_mod_mod _ _ _

theorem Covered.usage_pages (h : Covered l) : usage_pages l = lastEnd l / 0x2000 := by
  rw [usage_pages_eq, Nat.mod_eq_of_lt h.lastEnd_lt]

theorem mem_pageRange (b x n : ℕ) :
    (0x2000 * b + x) / 0x2000 ∈ pageRange b n ↔ x < 0x2000 * (n + 1) := by
  have hdiv : (0x2000 * b + x) / 0x2000 = b + x / 0x2000 := Nat.mul_add_div (by decide) _ _
  rw [hdiv, pageRange, List.mem_map]
  constructor
  · rintro ⟨j, hj, heq⟩
    have hj' := List.mem_range.mp hj
    omega
  · intro hx
    exact ⟨x / 0x2000, List.mem_range.mpr (by omega), rfl⟩

/-- Every byte is within the reserved pages exactly if every transfer ends
there. -/
theorem touched_iff (b n : ℕ) (r : TransferRecord DmaAddress) (side : Side) :
    (∀ k < 2 ^ r.size, (0x2000 * b + (r.offset side).toNat + k) / 0x2000 ∈ pageRange b n) ↔
      (r.offset side).toNat + 2 ^ r.size ≤ 0x2000 * (n + 1) := by
  have hpos := Nat.two_pow_pos r.size
  constructor
  · intro h
    have hlast := h (2 ^ r.size - 1) (by omega)
    rw [Nat.add_assoc, mem_pageRange] at hlast
    omega
  · intro h k hk
    rw [Nat.add_assoc, mem_pageRange]
    omega

/-- Within the pages that the code reserves, the end of the last transfer
does not wrap. -/
theorem covered_of_within (hn : usage_pages l < 2 ^ 32 - 1)
    (h : ∀ r ∈ l, ∀ side, (r.offset side).toNat + 2 ^ r.size ≤ 0x2000 * (usage_pages l + 1)) :
    Covered l := by
  have hlt : lastEnd l < 2 ^ 64 := by
    unfold lastEnd
    cases hlast : l.getLast? with
    | none => decide
    | some r =>
      have hr := h r (List.mem_of_getLast? hlast)
      have hsrc := hr .source
      have hdst := hr .destination
      simp only [TransferRecord.offset] at hsrc hdst
      show max _ _ + _ < _
      omega
  rw [usage_pages_eq, Nat.mod_eq_of_lt hlt] at h
  exact ⟨hlt, h⟩

/-- Transfers of one size whose offsets do not decrease are covered. -/
theorem covered_of_nondecreasing {size : ℕ} (hsize : ∀ r ∈ l, r.size = size)
    (hmono : ∀ side, l.Pairwise fun a b => (a.offset side).toNat ≤ (b.offset side).toNat)
    (hlt : lastEnd l < 2 ^ 64) : Covered l := by
  refine ⟨hlt, fun r hr side => ?_⟩
  obtain ⟨last, hlast⟩ : ∃ last, l.getLast? = some last := by
    cases h : l.getLast? with
    | none => rw [List.getLast?_eq_none_iff.mp h] at hr; cases hr
    | some last => exact ⟨last, rfl⟩
  have hle : (r.offset side).toNat ≤ (last.offset side).toNat := by
    obtain ⟨init, rfl⟩ := List.getLast?_eq_some_iff.mp hlast
    rcases List.mem_append.mp hr with hr | hr
    · exact (List.pairwise_append.mp (hmono side)).2.2 r hr last List.mem_cons_self
    · rw [List.mem_singleton.mp hr]
  have hend : (last.offset side).toNat + 2 ^ size ≤ lastEnd l := by
    rw [lastEnd, hlast]
    show _ ≤ max _ _ + 2 ^ last.size
    rw [hsize last (List.mem_of_getLast? hlast)]
    cases side
    · exact Nat.add_le_add_right (Nat.le_max_left _ _) _
    · exact Nat.add_le_add_right (Nat.le_max_right _ _) _
  rw [hsize r hr]
  omega

end touched

/-! ### What the TLB maps -/

section tlb
variable {v p v' o q : ℕ}

/-- A frame number comes out of an entry as it went in. -/
theorem entry_lo_frame (hq : q < 2 ^ 50) :
    (BitVec.ofNat 64 q <<< 6 ||| 7) >>> 6 = BitVec.ofNat 64 q := by
  apply BitVec.eq_of_toNat_eq
  have hor : q <<< 6 ||| 7 = q <<< 6 + 7 := (Nat.shiftLeft_add_eq_or_of_lt (by decide) q).symm
  simp only [BitVec.toNat_ushiftRight, BitVec.toNat_or, BitVec.toNat_shiftLeft, BitVec.toNat_ofNat]
  rw [Nat.mod_eq_of_lt (by omega : q < 2 ^ 64), Nat.shiftLeft_eq,
    Nat.mod_eq_of_lt (by omega : q * 2 ^ 6 < 2 ^ 64), ← Nat.shiftLeft_eq]
  show (q <<< 6 ||| 7) >>> 6 = q
  rw [hor, Nat.shiftLeft_eq, Nat.shiftRight_eq_div_pow]
  omega

/-- A frame and an offset in it make an address. -/
theorem frame_or_offset (hq : q < 2 ^ 50) (ho : o < 2 ^ 12) :
    BitVec.ofNat 64 q <<< 12 ||| ((BitVec.ofNat 64 o).setWidth 12).setWidth 64
      = BitVec.ofNat 64 (q * 2 ^ 12 + o) := by
  apply BitVec.eq_of_toNat_eq
  simp only [BitVec.toNat_or, BitVec.toNat_shiftLeft, BitVec.toNat_ofNat, BitVec.toNat_setWidth]
  rw [Nat.mod_eq_of_lt (by omega : q < 2 ^ 64), Nat.mod_eq_of_lt (by omega : o < 2 ^ 64),
    Nat.mod_eq_of_lt ho, Nat.mod_eq_of_lt (by omega : o < 2 ^ 64), Nat.shiftLeft_eq,
    Nat.mod_eq_of_lt (by omega : q * 2 ^ 12 < 2 ^ 64),
    Nat.mod_eq_of_lt (by omega : q * 2 ^ 12 + o < 2 ^ 64), ← Nat.shiftLeft_eq,
    Nat.shiftLeft_add_eq_or_of_lt ho]

/-- Which entry a virtual address selects. -/
theorem vpn_eq_iff (hv : v < 2 ^ 50) (hv' : v' < 2 ^ 50) (ho : o < 0x2000) :
    BitVec.ofNat 64 (0x2000 * v' + o) >>> 13 = (BitVec.ofNat 64 (2 * v) <<< 12) >>> 13 ↔ v' = v := by
  rw [← BitVec.toNat_inj]
  simp only [BitVec.toNat_ushiftRight, BitVec.toNat_shiftLeft, BitVec.toNat_ofNat,
    Nat.shiftRight_eq_div_pow, Nat.shiftLeft_eq]
  omega

/-- The low bits of an address are those of its offset in the page. -/
theorem setWidth_offset (v o : ℕ) :
    (BitVec.ofNat 64 (0x2000 * v + o)).setWidth 12 = (BitVec.ofNat 64 (o % 2 ^ 12)).setWidth 12 := by
  apply BitVec.eq_of_toNat_eq
  simp only [BitVec.toNat_setWidth, BitVec.toNat_ofNat]
  omega

/-- Which page of the pair an address is on. -/
theorem getLsbD_offset (v : ℕ) (ho : o < 0x2000) :
    (BitVec.ofNat 64 (0x2000 * v + o)).getLsbD 12 = decide (2 ^ 12 ≤ o) := by
  rw [BitVec.getLsbD_ofNat, Nat.testBit_eq_decide_div_mod_eq]
  simp only [show (12 < 64) = True by simp, decide_true, Bool.true_and, decide_eq_decide]
  omega

/-- The entry of a double-page translates its bytes and no others. -/
theorem translate_mapping (hv : v < 2 ^ 50) (hp : p < 2 ^ 49) (hv' : v' < 2 ^ 50) (ho : o < 0x2000) :
    (add_tlb_mapping (2 * BitVec.ofNat 64 v) (2 * BitVec.ofNat 64 p)
        (2 * BitVec.ofNat 64 p + 1)).translate (BitVec.ofNat 64 (0x2000 * v' + o)) =
      if v' = v then some (BitVec.ofNat 64 (0x2000 * p + o)) else none := by
  have hdouble (x : ℕ) : 2 * BitVec.ofNat 64 x = BitVec.ofNat 64 (2 * x) := (BitVec.ofNat_mul ..).symm
  have hodd : 2 * BitVec.ofNat 64 p + 1 = BitVec.ofNat 64 (2 * p + 1) := by
    rw [hdouble, BitVec.ofNat_add]
    rfl
  rw [hodd, hdouble, hdouble, TlbEntry.translate, add_tlb_mapping]
  simp only [vpn_eq_iff hv hv' ho, getLsbD_offset v' ho, setWidth_offset, decide_eq_true_eq,
    apply_ite (fun x : BitVec 64 => x >>> 6), entry_lo_frame (show 2 * p < 2 ^ 50 by omega),
    entry_lo_frame (show 2 * p + 1 < 2 ^ 50 by omega)]
  congr 1
  by_cases hpage : 2 ^ 12 ≤ o
  · rw [if_pos hpage, frame_or_offset (by omega) (Nat.mod_lt _ (by decide))]
    congr 2
    omega
  · rw [if_neg hpage, frame_or_offset (by omega) (Nat.mod_lt _ (by decide))]
    congr 2
    omega

end tlb

/-- Distinct virtual pages are mapped to the physical pages reserved with
them, and to nothing else. -/
theorem mapped_of_nodup {a : Allocation} {pairs : List (ℕ × ℕ)}
    (hvirt : a.virt.used_pns = pairs.map Prod.fst) (hphys : a.phys.used_pns = pairs.map Prod.snd)
    (hnodup : a.virt.used_pns.Nodup) (hv : ∀ v ∈ a.virt.used_pns, v < 2 ^ 50)
    (hp : ∀ p ∈ a.phys.used_pns, p < 2 ^ 49) {x : ℕ × ℕ} (hx : x ∈ pairs) {o : ℕ} (ho : o < 0x2000)
    (pa : BitVec 64) :
    (∃ e ∈ a.tlb, e.translate (BitVec.ofNat 64 (0x2000 * x.1 + o)) = some pa) ↔
      pa = BitVec.ofNat 64 (0x2000 * x.2 + o) := by
  have hbound : ∀ y ∈ pairs, y.1 < 2 ^ 50 ∧ y.2 < 2 ^ 49 := fun y hy =>
    ⟨hv _ (hvirt ▸ List.mem_map_of_mem hy), hp _ (hphys ▸ List.mem_map_of_mem hy)⟩
  have htlb : a.tlb = pairs.map fun y => add_tlb_mapping (2 * BitVec.ofNat 64 y.1)
      (2 * BitVec.ofNat 64 y.2) (2 * BitVec.ofNat 64 y.2 + 1) := by
    rw [Allocation.tlb, hvirt, hphys, List.zip_map', List.map_map]
    rfl
  rw [htlb]
  constructor
  · rintro ⟨e, he, htr⟩
    obtain ⟨y, hy, rfl⟩ := List.mem_map.mp he
    rw [translate_mapping (hbound y hy).1 (hbound y hy).2 (hbound x hx).1 ho] at htr
    split_ifs at htr with hxy
    -- the virtual page determines the pair
    obtain rfl : x = y := List.inj_on_of_nodup_map (hvirt ▸ hnodup) hx hy hxy
    exact (Option.some.inj htr).symm
  · rintro rfl
    refine ⟨_, List.mem_map_of_mem hx, ?_⟩
    rw [translate_mapping (hbound x hx).1 (hbound x hx).2 (hbound x hx).1 ho, if_pos rfl]

/-! ### When the allocation is safe -/

theorem exists_mem_zip {α β : Type*} {l : List α} {l' : List β} (h : l'.length = l.length) {x : α}
    (hx : x ∈ l) : ∃ y, (x, y) ∈ l.zip l' := by
  obtain ⟨i, hi, rfl⟩ := List.getElem_of_mem hx
  refine ⟨l'[i], ?_⟩
  rw [← List.getElem_zip (h := by rw [List.length_zip]; omega)]
  exact List.getElem_mem _

section safe
variable {transfer_lists : List (List (TransferRecord DmaAddress))}
  {phys_draws : List (Uniform MIN_PHYS_PAGE MAX_PHYS_PAGE)} {virt_draws : List (Uniform 0 VIRT_PAGE_COUNT)}
  {a : Allocation}

/-- **The allocation is safe exactly when the draws leave room** for whole
ranges, and no transfer goes past the double-page where its thread's last
transfer ends. -/
theorem allocation_safe_iff
    (h : allocate transfer_lists (.start phys_draws virt_draws) = some a) :
    a.Safe transfer_lists ↔
      (∀ l ∈ transfer_lists, Covered l) ∧
        (Allocation.start phys_draws virt_draws).phys.Roomy (· ≤ MAX_PHYS_PAGE)
          (ranges transfer_lists) ∧
        (Allocation.start phys_draws virt_draws).virt.Roomy (fun _ => True)
          (ranges transfer_lists) := by
  obtain ⟨ts, hts, hlength, hvirt, hphys⟩ := allocate_in_step h
  obtain rfl : a.threads = ts := hts
  have husage := allocate_usage_lt h
  obtain ⟨hlow, hv⟩ := allocate_used (P := fun p => MIN_PHYS_PAGE ≤ p ∧ p < 2 ^ 49)
    (Q := fun v => v < 2 ^ 50) h
    (fun d j h₁ h₂ h₃ => by unfold MAX_PHYS_PAGE at h₂; omega)
    (fun d j h₁ h₂ h₃ => by unfold VIRT_PAGE_COUNT at h₂; omega)
    (fun p hp => absurd hp List.not_mem_nil) (fun p hp => absurd hp List.not_mem_nil)
  have hstart₁ : (Allocation.start phys_draws virt_draws).phys.Good (· ≤ MAX_PHYS_PAGE) :=
    ⟨.nil, fun p hp => absurd hp List.not_mem_nil⟩
  have hstart₂ : (Allocation.start phys_draws virt_draws).virt.Good (fun _ => True) :=
    ⟨.nil, fun _ _ => trivial⟩
  -- what the draws have to leave free is counted by the pages of covered lists
  have hgood (hcov : ∀ l ∈ transfer_lists, Covered l) :
      (a.phys.Good (· ≤ MAX_PHYS_PAGE) ↔ _ ∧ _) ∧ (a.virt.Good (fun _ => True) ↔ _ ∧ _) :=
    good_allocate h fun l hl => (hcov l hl).usage_pages
  constructor
  · intro hs
    have hcov : ∀ l ∈ transfer_lists, Covered l := by
      intro l hl
      -- every list has its pages, and being touched they cover it
      obtain ⟨t, ht⟩ := exists_mem_zip hlength hl
      refine covered_of_within (husage l hl) fun r hr side => ?_
      exact (touched_iff (t.virt side) _ r side).mp fun k hk => (hs.touched l t ht side r hr k hk).1
    obtain ⟨hphys', hvirt'⟩ := hgood hcov
    exact ⟨hcov, (hphys'.mp ⟨hs.phys_nodup, fun p hp => (hs.phys_range p hp).2⟩).2,
      (hvirt'.mp ⟨hs.virt_nodup, fun _ _ => trivial⟩).2⟩
  · rintro ⟨hcov, hroom₁, hroom₂⟩
    obtain ⟨hphys', hvirt'⟩ := hgood hcov
    obtain ⟨hpnodup, hpmax⟩ := hphys'.mpr ⟨hstart₁, hroom₁⟩
    obtain ⟨hvnodup, -⟩ := hvirt'.mpr ⟨hstart₂, hroom₂⟩
    constructor
    case phys_nodup => exact hpnodup
    case phys_range => exact fun p hp => ⟨(hlow p hp).1, hpmax p hp⟩
    case virt_nodup => exact hvnodup
    case touched =>
      intro l t hlt side r hr k hk
      have hl := hcov l (List.of_mem_zip hlt).1
      have hend := hl.within r hr side
      rw [← hl.usage_pages] at hend
      exact ⟨(touched_iff (t.virt side) _ r side).mpr hend k hk,
        (touched_iff (t.phys side) _ r side).mpr hend k hk⟩
    case mapped =>
      intro l t hlt side o ho pa
      have hpair : (t.virt side + o / 0x2000, t.phys side + o / 0x2000)
          ∈ (transfer_lists.zip a.threads).flatMap threadPairs := by
        refine List.mem_flatMap.mpr ⟨(l, t), hlt, ?_⟩
        have hj : o / 0x2000 < usage_pages l + 1 := Nat.div_lt_of_lt_mul ho
        cases side with
        | source => exact List.mem_append_left _ (List.mem_map_of_mem (List.mem_range.mpr hj))
        | destination => exact List.mem_append_right _ (List.mem_map_of_mem (List.mem_range.mpr hj))
      -- an offset into the region is a page of it and an offset into that page
      have hsplit (b : ℕ) : 0x2000 * b + o = 0x2000 * (b + o / 0x2000) + o % 0x2000 := by
        have := Nat.div_add_mod o 0x2000
        omega
      rw [hsplit, hsplit (t.phys side)]
      exact mapped_of_nodup hvirt hphys hvnodup hv (fun p hp => (hlow p hp).2) hpair
        (Nat.mod_lt _ (by decide)) pa

/-- Ranges of three pages that do not meet. -/
theorem allocation_safe_apart :
    ∃ a, allocate [[⟨21888, 21888, 5⟩]] (.start [⟨0x8001, by decide⟩, ⟨0x8004, by decide⟩]
        [⟨0, by decide⟩, ⟨16, by decide⟩]) = some a ∧ a.Safe [[⟨21888, 21888, 5⟩]] := by
  obtain ⟨a, ha⟩ : ∃ a, allocate [[⟨21888, 21888, 5⟩]] (.start [⟨0x8001, by decide⟩,
      ⟨0x8004, by decide⟩] [⟨0, by decide⟩, ⟨16, by decide⟩]) = some a := ⟨_, rfl⟩
  refine ⟨a, ha, (allocation_safe_iff ha).mpr ⟨?_, ?_, ?_⟩⟩
  · intro l hl
    obtain rfl := List.mem_singleton.mp hl
    refine ⟨by decide, fun r hr side => ?_⟩
    obtain rfl := List.mem_singleton.mp hr
    cases side <;> decide
  · refine ⟨?_, fun e s he => ?_⟩
    · rintro e draws ⟨⟩
      decide
    · obtain ⟨rfl, rfl⟩ := Prod.mk.inj (Option.some.inj he)
      refine ⟨?_, fun _ _ _ => trivial⟩
      rintro e draws ⟨⟩
      decide
  · refine ⟨?_, fun e s he => ?_⟩
    · rintro e draws ⟨⟩
      decide
    · obtain ⟨rfl, rfl⟩ := Prod.mk.inj (Option.some.inj he)
      refine ⟨?_, fun _ _ _ => trivial⟩
      rintro e draws ⟨⟩
      decide

/-- The program of the thread in `allocation_overlaps`: a doubly nested loop
adds 19 * 32 to both offsets thirty-six times before the only transfer. -/
def longProgram : List DmaInstruction :=
  [DMA_OP_SET 0 5, DMA_OP_SET 1 5, DMA_OP_ADD 0 608, DMA_OP_LOOP 1 1, DMA_OP_LOOP 0 3,
    DMA_OP_TRANSFER 5, DMA_OP_STOP]

/-- A thread that runs `longProgram`, and draws that put its destination pages
one before its source pages. -/
theorem allocation_overlaps :
    ∃ (l : List (TransferRecord DmaAddress)) (phys_draws : List (Uniform MIN_PHYS_PAGE MAX_PHYS_PAGE))
      (virt_draws : List (Uniform 0 VIRT_PAGE_COUNT)) (a : Allocation),
      Generated longProgram ∧ TransfersOf (fun _ => .AT_BOTH) longProgram l ∧
      (∀ side, l.Pairwise fun r r' => (r.offset side).toNat ≤ (r'.offset side).toNat) ∧
      allocate [l] (.start phys_draws virt_draws) = some a ∧ ¬ a.Safe [l] := by
  refine ⟨[⟨21888, 21888, 5⟩], [⟨0x8001, by decide⟩, ⟨0x8000, by decide⟩],
    [⟨0, by decide⟩, ⟨16, by decide⟩], _, ?_, ⟨fun _ => 0, 120, ?_⟩, ?_, rfl, ?_⟩
  · exact ⟨.DMAPNT_SEQ (.DMAPNT_LOOP (.DMAPNT_LOOP .DMAPNT_OP)) .DMAPNT_OP,
      fun k => [5, 4, 4, 1, 0, 19, 0].getD k 0, _, rfl⟩
  · decide +kernel
  · exact fun side => List.pairwise_singleton _ _
  · intro hs
    have hnodup := hs.phys_nodup
    revert hnodup
    decide

end safe

end Cheritest
