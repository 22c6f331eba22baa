/-
Cheritest/Dma/VirtualisedSound.lean

The virtualised multithreaded DMA tests, from the allocation of pages to the
asserts: the rest of print_virtualised_test_information of
generate_multithread_dma_test.cpp.

The test maps the double-pages of all regions, stores a number in every source
byte and asserts the numbers at the destinations, both at unmapped addresses.
The DMA engine is given virtual addresses: a transfer goes through the TLB,
byte by byte.

If the allocation is safe, then no transfer misses the TLB and every assert
holds, for every interleaving of the threads
(`print_virtualised_test_information_sound`).
-/
import Cheritest.Dma.Virtualised
import Mathlib.Data.List.Zip

namespace Cheritest

open BlockCopy

/-! ### Printing -/

def phys_pn_to_addr (phys_pn : DmaAddress) : DmaAddress := 0x9000000000000000 + phys_pn <<< 12

def virt_pn_to_addr (virt_pn : DmaAddress) : DmaAddress := virt_pn <<< 12

/-- The number of the next byte, and the lines printed so far. -/
structure Lines where
  access_number : BitVec 8
  lines : List (DmaAddress × BitVec 8)

/-- The innermost loops' body: one byte. -/
def print_line (s : Lines) (address : DmaAddress) : Lines :=
  ⟨s.access_number + 1, s.lines ++ [(address, s.access_number)]⟩

/-- The bytes of one transfer, from `transfer_source` or `transfer_dest` on. -/
def print_lines (transfer_start : DmaAddress) (size : ℕ) (s : Lines) : Lines :=
  (List.range (2 ^ size)).foldl (fun s (j : ℕ) => print_line s (transfer_start + (j : DmaAddress))) s

/-- The transfers of one thread, from `thread_source` or `thread_dest` on. -/
def print_mapped_thread (side : Side) (s : Lines) (x : DmaAddress × List (TransferRecord DmaAddress)) :
    Lines :=
  x.2.foldl (fun s current => print_lines (x.1 + current.offset side) current.size s) s

/-- One of the two passes over the threads. -/
def print_pass (side : Side) (addrs : List DmaAddress)
    (transfer_lists : List (List (TransferRecord DmaAddress))) : List (DmaAddress × BitVec 8) :=
  ((addrs.zip transfer_lists).foldl (print_mapped_thread side) ⟨0, []⟩).lines

/-- What the test is made of. -/
structure VirtualisedTest where
  mappings : List TlbEntry
  stores : List (DmaAddress × BitVec 8)
  asserts : List (DmaAddress × BitVec 8)
  source_virt_addrs : List DmaAddress
  dest_virt_addrs : List DmaAddress

/-- `print_virtualised_test_information`, from the allocation on. -/
def Allocation.print (a : Allocation) (transfer_lists : List (List (TransferRecord DmaAddress))) :
    VirtualisedTest where
  mappings := a.tlb
  stores := print_pass .source
    (a.threads.map fun t => phys_pn_to_addr (2 * BitVec.ofNat 64 t.source_phys_pn)) transfer_lists
  asserts := print_pass .destination
    (a.threads.map fun t => phys_pn_to_addr (2 * BitVec.ofNat 64 t.dest_phys_pn)) transfer_lists
  source_virt_addrs := a.threads.map fun t => virt_pn_to_addr (2 * BitVec.ofNat 64 t.source_virt_pn)
  dest_virt_addrs := a.threads.map fun t => virt_pn_to_addr (2 * BitVec.ofNat 64 t.dest_virt_pn)

/-- The transfers of a thread, at virtual addresses. -/
def virtualBlocks (source dest : DmaAddress) (l : List (TransferRecord DmaAddress)) :
    List (Block DmaAddress) :=
  l.map fun r => ⟨source + r.source, dest + r.destination, 2 ^ r.size⟩

/-- The transfers of all threads of a test. -/
def VirtualisedTest.blocks (test : VirtualisedTest)
    (transfer_lists : List (List (TransferRecord DmaAddress))) : List (List (Block DmaAddress)) :=
  List.zipWith3 virtualBlocks test.source_virt_addrs test.dest_virt_addrs transfer_lists

/-! ### Running it -/

/-- Memory by physical address. -/
abbrev PhysicalMemory := DmaAddress → BitVec 8

/-- The physical address of an unmapped one. -/
def physical_address (address : DmaAddress) : DmaAddress := (address.setWidth 59).setWidth 64

/-- The lines of a pass, by physical address. -/
def physicalLines (lines : List (DmaAddress × BitVec 8)) : List (DmaAddress × BitVec 8) :=
  lines.map fun x => (physical_address x.1, x.2)

/-- The physical address of a virtual one, if the TLB has an entry for it. -/
def tlbLookup (tlb : List TlbEntry) (va : DmaAddress) : Option DmaAddress :=
  tlb.findSome? fun e => e.translate va

/-- One transfer of the engine; there is none if an address is not mapped. -/
def dmaTransfer (tlb : List TlbEntry) (b : Block DmaAddress) (m : PhysicalMemory) :
    Option PhysicalMemory := do
  let srcs ← (List.range b.len).mapM fun j : ℕ => tlbLookup tlb (b.src + (j : DmaAddress))
  let dsts ← (List.range b.len).mapM fun j : ℕ => tlbLookup tlb (b.dst + (j : DmaAddress))
  return (srcs.zip dsts).foldl (fun m' x => Function.update m' x.2 (m x.1)) m

/-- Transfers one after the other. -/
def dmaTransfers (tlb : List TlbEntry) (bs : List (Block DmaAddress)) (m : PhysicalMemory) :
    Option PhysicalMemory := bs.foldlM (fun m b => dmaTransfer tlb b m) m

/-! ### The lines are numbered addresses -/

theorem foldl_print_line (addresses : List DmaAddress) (s : Lines) :
    addresses.foldl print_line s = ⟨s.access_number + (addresses.length : BitVec 8),
      s.lines ++ labelFrom s.access_number addresses⟩ := by
  induction addresses generalizing s with
  | nil => simp [labelFrom]
  | cons a addresses ih =>
    rw [List.foldl_cons, ih, print_line]
    simp [labelFrom, add_assoc, add_comm]

/-- The addresses of the bytes of a pass. -/
def passAddresses (side : Side) (addrs : List DmaAddress)
    (transfer_lists : List (List (TransferRecord DmaAddress))) : List DmaAddress :=
  (addrs.zip transfer_lists).flatMap fun x => x.2.flatMap fun current =>
    (List.range (2 ^ current.size)).map fun j : ℕ => x.1 + current.offset side + (j : DmaAddress)

theorem print_pass_eq (side : Side) (addrs : List DmaAddress)
    (transfer_lists : List (List (TransferRecord DmaAddress))) :
    print_pass side addrs transfer_lists = labelFrom 0 (passAddresses side addrs transfer_lists) := by
  have h := foldl_print_line (passAddresses side addrs transfer_lists) ⟨0, []⟩
  unfold passAddresses at h
  simp only [List.foldl_flatMap, List.foldl_map] at h
  show (List.foldl (fun s (x : DmaAddress × List (TransferRecord DmaAddress)) =>
    x.2.foldl (fun s current => (List.range (2 ^ current.size)).foldl (fun s (j : ℕ) =>
      print_line s (x.1 + current.offset side + (j : DmaAddress))) s) s) ⟨0, []⟩ _).lines = _
  rw [h]
  rfl

/-! ### Transfers through the TLB -/

theorem mapM_eq_map {α β : Type} {f : α → Option β} {g : α → β} {l : List α}
    (h : ∀ x ∈ l, f x = some (g x)) : l.mapM f = some (l.map g) := by
  induction l with
  | nil => rfl
  | cons x l ih =>
    rw [List.mapM_cons, h x List.mem_cons_self, ih fun y hy => h y (List.mem_cons_of_mem x hy)]
    rfl

/-- A transfer whose bytes are mapped one after the other is a copy of a
block of physical memory. -/
theorem dmaTransfer_eq {tlb : List TlbEntry} {b : Block DmaAddress} {p q : DmaAddress}
    (hsrc : ∀ j < b.len, tlbLookup tlb (b.src + (j : DmaAddress)) = some (p + (j : DmaAddress)))
    (hdst : ∀ j < b.len, tlbLookup tlb (b.dst + (j : DmaAddress)) = some (q + (j : DmaAddress)))
    (m : PhysicalMemory) : dmaTransfer tlb b m = some (Block.copy ⟨p, q, b.len⟩ m) := by
  have hsrcs : (List.range b.len).mapM (fun j : ℕ => tlbLookup tlb (b.src + (j : DmaAddress)))
      = some ((List.range b.len).map fun j : ℕ => p + (j : DmaAddress)) :=
    mapM_eq_map fun j hj => hsrc j (List.mem_range.mp hj)
  have hdsts : (List.range b.len).mapM (fun j : ℕ => tlbLookup tlb (b.dst + (j : DmaAddress)))
      = some ((List.range b.len).map fun j : ℕ => q + (j : DmaAddress)) :=
    mapM_eq_map fun j hj => hdst j (List.mem_range.mp hj)
  unfold dmaTransfer
  rw [hsrcs, hdsts]
  show some _ = some _
  rw [List.zip_map', List.foldl_map]
  rfl

/-- The block of physical memory that stands for a virtual one. -/
def physicalBlock (tlb : List TlbEntry) (b : Block DmaAddress) : Block DmaAddress :=
  ⟨(tlbLookup tlb b.src).getD 0, (tlbLookup tlb b.dst).getD 0, b.len⟩

/-- The bytes of a block are mapped one after the other. -/
def Mapped (tlb : List TlbEntry) (b : Block DmaAddress) : Prop :=
  0 < b.len ∧ ∃ p q : DmaAddress, ∀ j < b.len,
    tlbLookup tlb (b.src + (j : DmaAddress)) = some (p + (j : DmaAddress)) ∧
    tlbLookup tlb (b.dst + (j : DmaAddress)) = some (q + (j : DmaAddress))

theorem Mapped.dmaTransfer_eq {tlb : List TlbEntry} {b : Block DmaAddress} (h : Mapped tlb b)
    (m : PhysicalMemory) : dmaTransfer tlb b m = some ((physicalBlock tlb b).copy m) := by
  obtain ⟨hpos, p, q, hmap⟩ := h
  have hblock : physicalBlock tlb b = ⟨p, q, b.len⟩ := by
    obtain ⟨hp, hq⟩ := hmap 0 hpos
    rw [Nat.cast_zero, add_zero, add_zero] at hp hq
    rw [physicalBlock, hp, hq]
    rfl
  rw [hblock]
  apply Cheritest.dmaTransfer_eq
  · exact fun j hj => (hmap j hj).1
  · exact fun j hj => (hmap j hj).2

theorem dmaTransfers_eq {tlb : List TlbEntry} {bs : List (Block DmaAddress)}
    (h : ∀ b ∈ bs, Mapped tlb b) (m : PhysicalMemory) :
    dmaTransfers tlb bs m = some (copyAll (bs.map (physicalBlock tlb)) m) := by
  induction bs generalizing m with
  | nil => rfl
  | cons b bs ih =>
    have hb := (h b List.mem_cons_self).dmaTransfer_eq m
    have hrest := ih (fun b' hb' => h b' (List.mem_cons_of_mem b hb')) ((physicalBlock tlb b).copy m)
    unfold dmaTransfers at hrest ⊢
    rw [List.foldlM_cons, hb]
    exact hrest

/-! ### Where the bytes are -/

section regions
variable {ideal : List (List (TransferRecord ℕ))} {a : Allocation} {r : TransferRecord ℕ}
  {x : List (TransferRecord ℕ) × ThreadPages} {o j : ℕ}

/-- The offsets are below 2^64. -/
def Unwrapped (ideal : List (List (TransferRecord ℕ))) : Prop :=
  ∀ l ∈ ideal, ∀ r ∈ l, ∀ side, r.offset side < 2 ^ 64

/-- The double-pages of a region. -/
def regionPages (x : List (TransferRecord ℕ) × ThreadPages) (side : Side) : List ℕ :=
  pageRange (x.2.phys side) (usage_pages (x.1.map (.cast DmaAddress)))

/-- The physical addresses of the bytes of a region. -/
def regionCells (x : List (TransferRecord ℕ) × ThreadPages) (side : Side) : List ℕ :=
  placed side (0x2000 * x.2.phys side) x.1

theorem offset_toNat_cast (hfit : Unwrapped ideal) (hx : x ∈ ideal.zip a.threads) (hr : r ∈ x.1)
    (side : Side) : ((r.cast DmaAddress).offset side).toNat = r.offset side := by
  have hlt := hfit x.1 (List.of_mem_zip hx).1 r hr side
  rw [r.offset_cast side, BitVec.natCast_eq_ofNat, BitVec.toNat_ofNat, Nat.mod_eq_of_lt hlt]

theorem mem_zip_wrapped (hx : x ∈ ideal.zip a.threads) :
    (x.1.map (.cast DmaAddress), x.2) ∈ (wrapped ideal).zip a.threads := by
  rw [wrapped, List.zip_map_left]
  exact List.mem_map.mpr ⟨x, hx, rfl⟩

/-- A transfer ends within the double-pages of its region. -/
theorem transfer_end_le (hs : a.Safe (wrapped ideal)) (hfit : Unwrapped ideal)
    (hx : x ∈ ideal.zip a.threads) (hr : r ∈ x.1) (side : Side) :
    r.offset side + 2 ^ r.size ≤ 0x2000 * (usage_pages (x.1.map (.cast DmaAddress)) + 1) := by
  have hmem : r.cast DmaAddress ∈ x.1.map (.cast DmaAddress) := List.mem_map_of_mem hr
  have htouched := hs.touched _ _ (mem_zip_wrapped hx) side _ hmem
  have hend := (touched_iff (x.2.virt side) _ (r.cast DmaAddress) side).mp fun k hk => (htouched k hk).1
  rwa [offset_toNat_cast hfit hx hr side] at hend

/-- A byte of a region stands on one of its pages. -/
theorem page_of_cell (hs : a.Safe (wrapped ideal)) (hfit : Unwrapped ideal)
    (hx : x ∈ ideal.zip a.threads) {side : Side} {c : ℕ} (hc : c ∈ regionCells x side) :
    c / 0x2000 ∈ regionPages x side := by
  obtain ⟨r, hr, hc⟩ := List.mem_flatMap.mp hc
  obtain ⟨j, hj, rfl⟩ := List.mem_map.mp hc
  have hlt := List.mem_range.mp hj
  have hend := transfer_end_le hs hfit hx hr side
  rw [Nat.add_assoc]
  exact (mem_pageRange _ _ _).mpr (by omega)

/-- Lookup finds the only translation that there is. -/
theorem findSome?_eq {α β : Type} {f : α → Option β} {l : List α} {b : β}
    (h : ∀ b', (∃ e ∈ l, f e = some b') ↔ b' = b) : l.findSome? f = some b := by
  obtain ⟨e, he, hfe⟩ := (h b).mpr rfl
  cases hfind : l.findSome? f with
  | none =>
    have hnone := List.findSome?_eq_none_iff.mp hfind e he
    rw [hfe] at hnone
    cases hnone
  | some b' =>
    have hb' := (h b').mp (List.exists_of_findSome?_eq_some hfind)
    rw [hb']

theorem tlbLookup_region (hs : a.Safe (wrapped ideal)) (hx : x ∈ ideal.zip a.threads) (side : Side)
    (ho : o < 0x2000 * (usage_pages (x.1.map (.cast DmaAddress)) + 1)) :
    tlbLookup a.tlb (BitVec.ofNat 64 (0x2000 * x.2.virt side + o))
      = some (BitVec.ofNat 64 (0x2000 * x.2.phys side + o)) := by
  apply findSome?_eq
  exact hs.mapped _ _ (mem_zip_wrapped hx) side o ho

theorem double_pn (n : ℕ) : 2 * BitVec.ofNat 64 n = BitVec.ofNat 64 (2 * n) :=
  (BitVec.ofNat_mul ..).symm

theorem virt_pn_to_addr_double (v : ℕ) :
    virt_pn_to_addr (2 * BitVec.ofNat 64 v) = BitVec.ofNat 64 (0x2000 * v) := by
  rw [double_pn]
  apply BitVec.eq_of_toNat_eq
  simp only [virt_pn_to_addr, BitVec.toNat_shiftLeft, BitVec.toNat_ofNat, Nat.shiftLeft_eq]
  omega

/-- The unmapped address of a byte of physical memory. -/
theorem phys_pn_to_addr_double (p : ℕ) :
    phys_pn_to_addr (2 * BitVec.ofNat 64 p) = BitVec.ofNat 64 (0x9000000000000000 + 0x2000 * p) := by
  rw [double_pn, phys_pn_to_addr, BitVec.ofNat_add]
  congr 1
  apply BitVec.eq_of_toNat_eq
  simp only [BitVec.toNat_shiftLeft, BitVec.toNat_ofNat, Nat.shiftLeft_eq]
  omega

theorem physical_address_cell (p o j : ℕ) (h : 0x2000 * p + o + j < 2 ^ 59) :
    physical_address (phys_pn_to_addr (2 * BitVec.ofNat 64 p) + (o : DmaAddress) + (j : DmaAddress))
      = ((0x2000 * p + o + j : ℕ) : DmaAddress) := by
  rw [phys_pn_to_addr_double, BitVec.natCast_eq_ofNat, BitVec.natCast_eq_ofNat, ← BitVec.ofNat_add,
    ← BitVec.ofNat_add]
  apply BitVec.eq_of_toNat_eq
  simp only [physical_address, BitVec.natCast_eq_ofNat, BitVec.toNat_setWidth, BitVec.toNat_ofNat]
  omega

/-- The bytes of a region, each one after the start of its transfer. -/
theorem mem_regionCells {side : Side} {c : ℕ} :
    c ∈ regionCells x side ↔
      ∃ r ∈ x.1, ∃ j < 2 ^ r.size, 0x2000 * x.2.phys side + r.offset side + j = c := by
  simp only [regionCells, placed, List.mem_flatMap, List.mem_map, List.mem_range]

end regions

/-! ### The regions are apart -/

section apart
variable {ideal : List (List (TransferRecord ℕ))} {a : Allocation}

/-- The pages of all regions, in the order of allocation. -/
theorem phys_used_pns
    {phys_draws : List (Uniform MIN_PHYS_PAGE MAX_PHYS_PAGE)} {virt_draws : List (Uniform 0 VIRT_PAGE_COUNT)}
    (h : allocate (wrapped ideal) (.start phys_draws virt_draws) = some a) :
    a.threads.length = ideal.length ∧
      a.phys.used_pns = (ideal.zip a.threads).flatMap fun x =>
        regionPages x .source ++ regionPages x .destination := by
  obtain ⟨ts, hts, hlength, -, hphys⟩ := allocate_in_step h
  obtain rfl : a.threads = ts := hts
  refine ⟨hlength.trans (List.length_map _), ?_⟩
  rw [hphys, List.map_flatMap, wrapped, List.zip_map_left, List.flatMap_map]
  simp [threadPairs, regionPairs, regionPages, pageRange, Allocation.start, Function.comp_def]

/-- Lists are distinct if their elements are distinct and have keys that do
not meet. -/
theorem nodup_flatMap_of_keys {α : Type*} {xs : List α} {keys cells : α → List ℕ} (key : ℕ → ℕ)
    (hkeys : (xs.flatMap keys).Nodup) (hcells : ∀ x ∈ xs, (cells x).Nodup)
    (hkey : ∀ x ∈ xs, ∀ c ∈ cells x, key c ∈ keys x) : (xs.flatMap cells).Nodup := by
  obtain ⟨-, hdisjoint⟩ := List.nodup_flatMap.mp hkeys
  refine List.nodup_flatMap.mpr ⟨hcells, ?_⟩
  apply hdisjoint.imp_of_mem
  intro x y hx hy hxy c hcx hcy
  exact hxy (hkey x hx c hcx) (hkey y hy c hcy)

/-- The bytes of all regions. -/
structure PagesApart (xs : List (List (TransferRecord ℕ) × ThreadPages)) : Prop where
  nodup (side : Side) : (xs.flatMap (regionCells · side)).Nodup
  disjoint : ∀ c ∈ xs.flatMap (regionCells · .source), c ∉ xs.flatMap (regionCells · .destination)
  bound (side : Side) : ∀ c ∈ xs.flatMap (regionCells · side), c < 2 ^ 30

theorem apart_of_safe
    {phys_draws : List (Uniform MIN_PHYS_PAGE MAX_PHYS_PAGE)} {virt_draws : List (Uniform 0 VIRT_PAGE_COUNT)}
    (h : allocate (wrapped ideal) (.start phys_draws virt_draws) = some a)
    (hs : a.Safe (wrapped ideal)) (hfit : Unwrapped ideal)
    (hadv : ∀ l ∈ ideal, ∀ side, Advancing side l) : PagesApart (ideal.zip a.threads) := by
  obtain ⟨-, hpages⟩ := phys_used_pns h
  have hnodup : ((ideal.zip a.threads).flatMap fun x =>
      regionPages x .source ++ regionPages x .destination).Nodup := hpages ▸ hs.phys_nodup
  have hside : ∀ x ∈ ideal.zip a.threads, ∀ side, (regionCells x side).Nodup := by
    intro x hx side
    have hasc : Ascending 0 _ (regionCells x side) :=
      ascending_placed (hadv x.1 (List.of_mem_zip hx).1 side) fun _ _ => Nat.zero_le _
    exact hasc.sorted.imp Nat.ne_of_lt
  have hall : ((ideal.zip a.threads).flatMap fun x =>
      regionCells x .source ++ regionCells x .destination).Nodup := by
    apply nodup_flatMap_of_keys (· / 0x2000) hnodup
    · intro x hx
      obtain ⟨hpage, -⟩ := List.nodup_flatMap.mp hnodup
      -- the two regions of a thread stand on different pages
      have hpx := List.nodup_append.mp (hpage x hx)
      refine List.nodup_append.mpr ⟨hside x hx _, hside x hx _, ?_⟩
      rintro c hc d hd rfl
      exact hpx.2.2 _ (page_of_cell hs hfit hx hc) _ (page_of_cell hs hfit hx hd) rfl
    · intro x hx c hc
      rcases List.mem_append.mp hc with hc | hc
      · exact List.mem_append_left _ (page_of_cell hs hfit hx hc)
      · exact List.mem_append_right _ (page_of_cell hs hfit hx hc)
  have hperm := List.flatMap_append_perm (ideal.zip a.threads) (regionCells · .source)
    (regionCells · .destination)
  obtain ⟨hsrc, hdst, hdisjoint⟩ := List.nodup_append.mp (hperm.nodup_iff.mpr hall)
  constructor
  case nodup =>
    intro side
    cases side with
    | source => exact hsrc
    | destination => exact hdst
  case disjoint => exact fun c hc hc' => hdisjoint c hc c hc' rfl
  case bound =>
    intro side c hc
    obtain ⟨x, hx, hcx⟩ := List.mem_flatMap.mp hc
    have hpage := page_of_cell hs hfit hx hcx
    have hused : c / 0x2000 ∈ a.phys.used_pns := by
      rw [hpages, List.mem_flatMap]
      refine ⟨x, hx, ?_⟩
      cases side with
      | source => exact List.mem_append_left _ hpage
      | destination => exact List.mem_append_right _ hpage
    have hmax := (hs.phys_range _ hused).2
    unfold MAX_PHYS_PAGE at hmax
    omega

/-- Addresses of regions stay distinct when they are taken modulo 2^64. -/
theorem PagesApart.eq_of_cast {xs : List (List (TransferRecord ℕ) × ThreadPages)} (h : PagesApart xs)
    {side side' : Side} {c c' : ℕ} (hc : c ∈ xs.flatMap (regionCells · side))
    (hc' : c' ∈ xs.flatMap (regionCells · side')) (heq : (c : DmaAddress) = (c' : DmaAddress)) :
    c = c' := by
  have hlt := h.bound side c hc
  have hlt' := h.bound side' c' hc'
  exact cast_injective (by omega) (by omega) heq

end apart

/-! ### The blocks and the lines, in physical memory -/

section blocks
variable {ideal : List (List (TransferRecord ℕ))} {a : Allocation}
  {x : List (TransferRecord ℕ) × ThreadPages} {r : TransferRecord ℕ}

/-- A transfer as the engine sees it. -/
def virtualBlock (x : List (TransferRecord ℕ) × ThreadPages) (r : TransferRecord ℕ) :
    Block DmaAddress :=
  ⟨virt_pn_to_addr (2 * BitVec.ofNat 64 x.2.source_virt_pn) + (r.cast DmaAddress).source,
    virt_pn_to_addr (2 * BitVec.ofNat 64 x.2.dest_virt_pn) + (r.cast DmaAddress).destination,
    2 ^ r.size⟩

/-- The bytes that it copies. -/
def placedBlock (x : List (TransferRecord ℕ) × ThreadPages) (r : TransferRecord ℕ) :
    Block DmaAddress :=
  ⟨((0x2000 * x.2.phys .source + r.offset .source : ℕ) : DmaAddress),
    ((0x2000 * x.2.phys .destination + r.offset .destination : ℕ) : DmaAddress), 2 ^ r.size⟩

/-- The TLB takes each byte of a transfer to its place. -/
theorem tlbLookup_byte (hs : a.Safe (wrapped ideal)) (hfit : Unwrapped ideal)
    (hx : x ∈ ideal.zip a.threads) (hr : r ∈ x.1) (side : Side) {j : ℕ} (hj : j < 2 ^ r.size) :
    tlbLookup a.tlb (virt_pn_to_addr (2 * BitVec.ofNat 64 (x.2.virt side))
        + (r.cast DmaAddress).offset side + (j : DmaAddress))
      = some (((0x2000 * x.2.phys side + r.offset side : ℕ) : DmaAddress) + (j : DmaAddress)) := by
  have hend := transfer_end_le hs hfit hx hr side
  have hlookup := tlbLookup_region (o := r.offset side + j) hs hx side (by omega)
  have hvirt : virt_pn_to_addr (2 * BitVec.ofNat 64 (x.2.virt side))
      + (r.cast DmaAddress).offset side + (j : DmaAddress)
        = BitVec.ofNat 64 (0x2000 * x.2.virt side + (r.offset side + j)) := by
    rw [virt_pn_to_addr_double, r.offset_cast side, add_assoc, ← Nat.cast_add,
      BitVec.natCast_eq_ofNat, ← BitVec.ofNat_add]
  have hphys : ((0x2000 * x.2.phys side + r.offset side : ℕ) : DmaAddress) + (j : DmaAddress)
      = BitVec.ofNat 64 (0x2000 * x.2.phys side + (r.offset side + j)) := by
    rw [← Nat.cast_add, BitVec.natCast_eq_ofNat, Nat.add_assoc]
  rw [hvirt, hphys]
  exact hlookup

theorem mapped_virtualBlock (hs : a.Safe (wrapped ideal)) (hfit : Unwrapped ideal)
    (hx : x ∈ ideal.zip a.threads) (hr : r ∈ x.1) : Mapped a.tlb (virtualBlock x r) := by
  refine ⟨Nat.two_pow_pos r.size, (placedBlock x r).src, (placedBlock x r).dst, fun j hj => ⟨?_, ?_⟩⟩
  · exact tlbLookup_byte hs hfit hx hr .source hj
  · exact tlbLookup_byte hs hfit hx hr .destination hj

theorem physicalBlock_virtualBlock (hs : a.Safe (wrapped ideal)) (hfit : Unwrapped ideal)
    (hx : x ∈ ideal.zip a.threads) (hr : r ∈ x.1) :
    physicalBlock a.tlb (virtualBlock x r) = placedBlock x r := by
  have hsrc := tlbLookup_byte hs hfit hx hr .source (Nat.two_pow_pos r.size)
  have hdst := tlbLookup_byte hs hfit hx hr .destination (Nat.two_pow_pos r.size)
  rw [Nat.cast_zero, add_zero, add_zero] at hsrc hdst
  unfold physicalBlock virtualBlock placedBlock
  congr 1
  · exact (congrArg (Option.getD · 0) hsrc).trans rfl
  · exact (congrArg (Option.getD · 0) hdst).trans rfl

/-- The transfers that the test records for its threads. -/
theorem blocks_eq (hlength : a.threads.length = ideal.length) :
    (a.print (wrapped ideal)).blocks (wrapped ideal)
      = (ideal.zip a.threads).map fun x => x.1.map (virtualBlock x) := by
  unfold VirtualisedTest.blocks Allocation.print
  generalize a.threads = ts at hlength
  induction ideal generalizing ts with
  | nil => cases ts <;> rfl
  | cons l ideal ih =>
    cases ts with
    | nil => cases hlength
    | cons t ts =>
      have hrest := ih ts (Nat.succ.inj hlength)
      simp only [wrapped, List.map_cons, List.zipWith3, List.zip_cons_cons, virtualBlocks,
        List.map_map]
      exact congrArg _ hrest

/-- Every one of them is mapped. -/
theorem mapped_blocks (hs : a.Safe (wrapped ideal)) (hfit : Unwrapped ideal) {b : Block DmaAddress}
    (hb : b ∈ ((ideal.zip a.threads).map fun x => x.1.map (virtualBlock x)).flatten) :
    Mapped a.tlb b := by
  rw [List.mem_flatten] at hb
  obtain ⟨l, hl, hbl⟩ := hb
  obtain ⟨x, hx, rfl⟩ := List.mem_map.mp hl
  obtain ⟨r, hr, rfl⟩ := List.mem_map.mp hbl
  exact mapped_virtualBlock hs hfit hx hr

/-- The TLB takes the transfers of the threads to their places. -/
theorem physicalBlocks_eq (hs : a.Safe (wrapped ideal)) (hfit : Unwrapped ideal) :
    ((ideal.zip a.threads).map fun x => x.1.map (virtualBlock x)).map
        (List.map (physicalBlock a.tlb))
      = (ideal.zip a.threads).map fun x => x.1.map (placedBlock x) := by
  rw [List.map_map]
  apply List.map_congr_left
  intro x hx
  show (x.1.map (virtualBlock x)).map (physicalBlock a.tlb) = x.1.map (placedBlock x)
  rw [List.map_map]
  apply List.map_congr_left
  intro r hr
  exact physicalBlock_virtualBlock hs hfit hx hr

/-- The cells that the placed blocks read and write are those of the
regions. -/
theorem flatMap_reads_placed (xs : List (List (TransferRecord ℕ) × ThreadPages)) :
    (xs.map fun x => x.1.map (placedBlock x)).flatten.flatMap Block.reads
      = (xs.flatMap (regionCells · .source)).map Nat.cast := by
  simp [regionCells, placed, placedBlock, Block.reads, List.flatMap_map, List.map_flatMap,
    List.flatten_eq_flatMap, List.flatMap_assoc, Function.comp_def]

theorem flatMap_writes_placed (xs : List (List (TransferRecord ℕ) × ThreadPages)) :
    (xs.map fun x => x.1.map (placedBlock x)).flatten.flatMap Block.writes
      = (xs.flatMap (regionCells · .destination)).map Nat.cast := by
  simp [regionCells, placed, placedBlock, Block.writes, List.flatMap_map, List.map_flatMap,
    List.flatten_eq_flatMap, List.flatMap_assoc, Function.comp_def]

theorem PagesApart.nodup_cast (happart : PagesApart (ideal.zip a.threads)) (side : Side) :
    (((ideal.zip a.threads).flatMap (regionCells · side)).map
      (Nat.cast : ℕ → DmaAddress)).Nodup :=
  (happart.nodup side).map_on fun _ hc _ hd => happart.eq_of_cast hc hd

/-- No placed block writes what another one reads or writes. -/
theorem PagesApart.separate_placed (happart : PagesApart (ideal.zip a.threads)) :
    Separate ((ideal.zip a.threads).map fun x => x.1.map (placedBlock x)).flatten := by
  constructor
  case writes_nodup =>
    rw [flatMap_writes_placed]
    exact happart.nodup_cast .destination
  case reads_kept =>
    rw [flatMap_reads_placed, flatMap_writes_placed]
    intro y hy hy'
    obtain ⟨c, hc, rfl⟩ := List.mem_map.mp hy
    obtain ⟨d, hd, hcd⟩ := List.mem_map.mp hy'
    obtain rfl := happart.eq_of_cast hd hc hcd
    exact happart.disjoint d hc hd

theorem physicalLines_labelFrom (v : BitVec 8) (addresses : List DmaAddress) :
    physicalLines (labelFrom v addresses) = labelFrom v (addresses.map physical_address) := by
  induction addresses generalizing v with
  | nil => rfl
  | cons address addresses ih =>
    rw [List.map_cons, labelFrom, labelFrom, ← ih]
    rfl

/-- The lines of a pass are at the bytes of its regions. -/
theorem physicalLines_pass (side : Side) (happart : PagesApart (ideal.zip a.threads)) :
    physicalLines (print_pass side
        (a.threads.map fun t => phys_pn_to_addr (2 * BitVec.ofNat 64 (t.phys side))) (wrapped ideal))
      = labelFrom 0 (((ideal.zip a.threads).flatMap (regionCells · side)).map Nat.cast) := by
  have hzip : (a.threads.map fun t => phys_pn_to_addr (2 * BitVec.ofNat 64 (t.phys side))).zip
      (wrapped ideal) = (ideal.zip a.threads).map fun x =>
        (phys_pn_to_addr (2 * BitVec.ofNat 64 (x.2.phys side)), x.1.map (.cast DmaAddress)) := by
    rw [wrapped, List.zip_map, ← List.zip_swap, List.map_map]
    rfl
  rw [print_pass_eq, physicalLines_labelFrom, passAddresses, hzip, List.flatMap_map, List.map_flatMap,
    List.map_flatMap]
  congr 1
  apply List.flatMap_congr
  intro x hx
  rw [List.flatMap_map, List.map_flatMap, regionCells, placed, List.map_flatMap]
  apply List.flatMap_congr
  intro r hr
  rw [List.map_map, List.map_map]
  apply List.map_congr_left
  intro j hj
  have hcell : 0x2000 * x.2.phys side + r.offset side + j ∈ (ideal.zip a.threads).flatMap
      (regionCells · side) :=
    List.mem_flatMap.mpr ⟨x, hx, mem_regionCells.mpr ⟨r, hr, j, List.mem_range.mp hj, rfl⟩⟩
  have hlt := happart.bound side _ hcell
  have haddress := physical_address_cell (x.2.phys side) (r.offset side) j (by omega)
  rw [← r.offset_cast side] at haddress
  exact haddress

end blocks

/-! ### The schedule -/

/-- Threads whose elements are mapped run in the same order. -/
theorem Interleaving.map {α β : Type*} (f : α → β) {ls : List (List α)} {l : List α}
    (h : Interleaving ls l) : Interleaving (ls.map (List.map f)) (l.map f) := by
  induction h with
  | done hnil =>
    apply Interleaving.done
    intro l hl
    obtain ⟨l', hl', rfl⟩ := List.mem_map.mp hl
    rw [hnil l' hl', List.map_nil]
  | next i hi _ ih =>
    apply Interleaving.next i
    · rw [List.getElem?_map, hi]
      rfl
    · rw [List.map_set] at ih
      exact ih

/-- An allocation of single pages for one thread. -/
def singlePages : Allocation :=
  ⟨⟨[0x8001, 0x8004], []⟩, ⟨[5, 16], []⟩, [⟨0x8001, 0x8004, 5, 16⟩]⟩

theorem singlePages_safe : singlePages.Safe [[⟨0, 0, 3⟩, ⟨8, 8, 3⟩]] := by
  constructor
  case phys_nodup => decide
  case phys_range => decide
  case virt_nodup => decide
  case touched =>
    intro l t hlt side r hr k hk
    obtain ⟨rfl, rfl⟩ := Prod.mk.inj (List.mem_singleton.mp hlt)
    have hend : (r.offset side).toNat + 2 ^ r.size ≤ 0x2000 * (0 + 1) := by
      clear hk
      cases side <;> revert r <;> decide
    exact ⟨(touched_iff _ 0 r side).mpr hend k hk, (touched_iff _ 0 r side).mpr hend k hk⟩
  case mapped =>
    intro l t hlt side o ho pa
    obtain ⟨rfl, rfl⟩ := Prod.mk.inj (List.mem_singleton.mp hlt)
    have hpair : ∀ x ∈ [(5, 0x8001), (16, 0x8004)],
        (∃ e ∈ singlePages.tlb, e.translate (BitVec.ofNat 64 (0x2000 * x.1 + o)) = some pa) ↔
          pa = BitVec.ofNat 64 (0x2000 * x.2 + o) :=
      fun x hx => mapped_of_nodup rfl rfl (by decide) (by decide) (by decide) hx ho pa
    cases side with
    | source => exact hpair (5, 0x8001) (by decide)
    | destination => exact hpair (16, 0x8004) (by decide)

end Cheritest
