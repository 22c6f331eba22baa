/-
Cheritest/Purecap/AtomicCalls.lean

The calls of atomic.c on objects of any size.

The generic calls (`__atomic_load_c` and so on) work on objects of any size,
byte by byte under the lock for the pointer, unless the size is one that the
platform can access without a lock.  The calls for a known size (`_1`, `_2`,
`_4`, `_8`) do the same with one access.  A call is given one object in shared
memory; its other pointers lead to memory of the calling thread.

If objects that overlap start in the same 16-byte block, and no object is
accessed with a lock and without one, then all calls together are linearizable,
for any number of threads and any interleaving of their accesses
(`atomic_calls_linearizable`).  The generic store of a size that needs no lock
is left out: it stores what it has loaded from the object itself
(`store_c_undoes`).
-/
import Cheritest.Lib.Binary
import Cheritest.Lib.LockedCalls
import Cheritest.Purecap.Atomic

namespace Cheritest

namespace Atomic

open Accesses (Prog)

/-! ### Memory -/

abbrev Addr := BitVec 64
abbrev Byte := BitVec 8

/-- Shared memory, or the memory of one thread. -/
abbrev Bytes := Addr → Byte

/-- The bytes of an object of size `n`, in the order of their addresses. -/
abbrev Value (n : ℕ) := Fin n → Byte

def read (n : ℕ) (m : Bytes) (a : Addr) : Value n := fun i => m (a + BitVec.ofNat 64 i)

def write {n : ℕ} (m : Bytes) (a : Addr) (v : Value n) : Bytes :=
  fun b => if h : (b - a).toNat < n then v ⟨(b - a).toNat, h⟩ else m b

/-- The number that the bytes make, the most significant first. -/
def number {n : ℕ} (v : Value n) : BitVec (8 * n) := BitVec.ofNat (8 * n) (Binary.ofBytes (List.ofFn v))

def bytes {n : ℕ} (x : BitVec (8 * n)) : Value n :=
  fun i => (Binary.toBytes n x.toNat).get (i.cast (Binary.length_toBytes n x.toNat).symm)

/-! ### The code -/

/-- What a call returns. -/
inductive Ret
  | void
  | int (r : ℕ)
  | value {n : ℕ} (v : Value n)

/-- Code up to a return. -/
abbrev Code := Prog Addr Byte Bytes Ret

/-- The operators that `ATOMIC_RMW` is instantiated with. -/
inductive Rmw
  | add
  | sub
  | and
  | or
  | xor

def Rmw.apply {w : ℕ} : Rmw → BitVec w → BitVec w → BitVec w
  | add, x, y => x + y
  | sub, x, y => x - y
  | and, x, y => x &&& y
  | or, x, y => x ||| y
  | xor, x, y => x ^^^ y

/-- `memcpy(dest, src, n)` from an object to the thread's own memory. -/
def memcpy_out : ℕ → Addr → Addr → Code → Code
  | 0, _, _, k => k
  | n + 1, dest, src, k => .shared id fun m => .own (fun p => Function.update p dest (m src)) fun _ =>
      memcpy_out n (dest + 1) (src + 1) k

/-- `memcpy(dest, src, n)` from the thread's own memory to an object. -/
def memcpy_in : ℕ → Addr → Addr → Code → Code
  | 0, _, _, k => k
  | n + 1, dest, src, k => .own id fun p => .shared (fun m => Function.update m dest (p src)) fun _ =>
      memcpy_in n (dest + 1) (src + 1) k

/-- `memcmp(s1, s2, n)` of an object and the thread's own memory. -/
def memcmp : ℕ → Addr → Addr → (ℤ → Code) → Code
  | 0, _, _, k => k 0
  | n + 1, s1, s2, k => .shared id fun m => .own id fun p =>
      if m s1 ≠ p s2 then
        .shared id fun m => .own id fun p => k ((m s1).toNat - (p s2).toNat)
      else memcmp n (s1 + 1) (s2 + 1) k

/-- An access to an object of size `n`, as one step. -/
def access (n : ℕ) (ptr : Addr) (f : Value n → Value n) (k : Value n → Code) : Code :=
  .shared (fun m => write m ptr (f (read n m ptr))) fun m => k (read n m ptr)

/-- An access to a variable of size `n` of the thread. -/
def get (n : ℕ) (ptr : Addr) (k : Value n → Code) : Code := .own id fun p => k (read n p ptr)

def put {n : ℕ} (ptr : Addr) (v : Value n) (k : Code) : Code := .own (fun p => write p ptr v) fun _ => k

/-- `__c11_atomic_compare_exchange_strong` on objects of size `n`. -/
def compare_exchange_strong (n : ℕ) (ptr expected : Addr) (desired : Value n) : Code :=
  get n expected fun e => access n ptr (fun v => if v = e then desired else v) fun v =>
    if v = e then .ret (.int 1) else put expected v (.ret (.int 0))

section code
-- `IS_LOCK_FREE_n`
variable (is_lock_free : ℕ → Bool)

/-- The size of the type of the first `LOCK_FREE_ACTION` that is reached: the
cases fall through, and 16 is never lock-free. -/
def LOCK_FREE_CASES : ℕ → Option ℕ
  | 2 => if is_lock_free 2 then some 2 else if is_lock_free 4 then some 4
      else if is_lock_free 8 then some 8 else none
  | 4 => if is_lock_free 4 then some 4 else if is_lock_free 8 then some 8 else none
  | 8 => if is_lock_free 8 then some 8 else none
  | _ => none

def atomic_load_c (size : ℕ) (src dest : Addr) : Code :=
  match LOCK_FREE_CASES is_lock_free size with
  | some n => access n src id fun v => put dest v (.ret .void)
  | none => memcpy_out size dest src (.ret .void)

/-- The lock-free action stores `*(type*)dest`. -/
def atomic_store_c (size : ℕ) (dest src : Addr) : Code :=
  match LOCK_FREE_CASES is_lock_free size with
  | some n => access n dest id fun v => access n dest (fun _ => v) fun _ => .ret .void
  | none => memcpy_in size dest src (.ret .void)

def atomic_compare_exchange_c (size : ℕ) (ptr expected desired : Addr) : Code :=
  match LOCK_FREE_CASES is_lock_free size with
  | some n => get n desired fun d => compare_exchange_strong n ptr expected d
  | none => memcmp size ptr expected fun r =>
      if r = 0 then memcpy_in size ptr desired (.ret (.int 1))
      else memcpy_out size expected ptr (.ret (.int 0))

def atomic_exchange_c (size : ℕ) (ptr val old : Addr) : Code :=
  match LOCK_FREE_CASES is_lock_free size with
  | some n => get n val fun x => access n ptr (fun _ => x) fun v => put old v (.ret .void)
  | none => memcpy_out size old ptr (memcpy_in size ptr val (.ret .void))

/-! For a known size `n` the code with a lock and the one without differ in
the type of the accesses only. -/

def atomic_load (n : ℕ) (src : Addr) : Code := access n src id fun val => .ret (.value val)

def atomic_store (n : ℕ) (dest : Addr) (val : Value n) : Code :=
  access n dest (fun _ => val) fun _ => .ret .void

def atomic_exchange (n : ℕ) (dest : Addr) (val : Value n) : Code :=
  if is_lock_free n then access n dest (fun _ => val) fun tmp => .ret (.value tmp)
  else access n dest id fun tmp => access n dest (fun _ => val) fun _ => .ret (.value tmp)

def atomic_compare_exchange (n : ℕ) (ptr expected : Addr) (desired : Value n) : Code :=
  if is_lock_free n then compare_exchange_strong n ptr expected desired
  else access n ptr id fun v => get n expected fun e =>
    if v = e then access n ptr (fun _ => desired) fun _ => .ret (.int 1)
    else access n ptr id fun v => put expected v (.ret (.int 0))

def atomic_fetch (op : Rmw) (n : ℕ) (ptr : Addr) (val : Value n) : Code :=
  if is_lock_free n then
    access n ptr (fun v => bytes (op.apply (number v) (number val))) fun tmp => .ret (.value tmp)
  else access n ptr id fun tmp =>
    access n ptr (fun _ => bytes (op.apply (number tmp) (number val))) fun _ => .ret (.value tmp)

/-- The calls, with their arguments but for the memory model. -/
inductive ObjectCall
  | load_c (size : ℕ) (src dest : Addr)
  | store_c (size : ℕ) (dest src : Addr)
  | compare_exchange_c (size : ℕ) (ptr expected desired : Addr)
  | exchange_c (size : ℕ) (ptr val old : Addr)
  | load (n : ℕ) (src : Addr)
  | store (n : ℕ) (dest : Addr) (val : Value n)
  | exchange (n : ℕ) (dest : Addr) (val : Value n)
  | compare_exchange (n : ℕ) (ptr expected : Addr) (desired : Value n)
  | fetch (op : Rmw) (n : ℕ) (ptr : Addr) (val : Value n)

namespace ObjectCall

/-- The object that a call is given. -/
def ptr : ObjectCall → Addr
  | load_c _ src _ => src
  | store_c _ dest _ => dest
  | compare_exchange_c _ ptr _ _ => ptr
  | exchange_c _ ptr _ _ => ptr
  | load _ src => src
  | store _ dest _ => dest
  | exchange _ dest _ => dest
  | compare_exchange _ ptr _ _ => ptr
  | fetch _ _ ptr _ => ptr

def size : ObjectCall → ℕ
  | load_c size _ _ | store_c size _ _ | compare_exchange_c size _ _ _ | exchange_c size _ _ _ => size
  | load n _ | store n _ _ | exchange n _ _ | compare_exchange n _ _ _ | fetch _ n _ _ => n

/-- A call that takes no lock. -/
def lock_free : ObjectCall → Bool
  | load_c size _ _ | store_c size _ _ | compare_exchange_c size _ _ _ | exchange_c size _ _ _ =>
      (LOCK_FREE_CASES is_lock_free size).isSome
  | load n _ | store n _ _ | exchange n _ _ | compare_exchange n _ _ _ | fetch _ n _ _ =>
      is_lock_free n

/-- What is done between lock and unlock, or without them. -/
def body : ObjectCall → Code
  | load_c size src dest => atomic_load_c is_lock_free size src dest
  | store_c size dest src => atomic_store_c is_lock_free size dest src
  | compare_exchange_c size ptr expected desired =>
      atomic_compare_exchange_c is_lock_free size ptr expected desired
  | exchange_c size ptr val old => atomic_exchange_c is_lock_free size ptr val old
  | load n src => atomic_load n src
  | store n dest val => atomic_store n dest val
  | exchange n dest val => atomic_exchange is_lock_free n dest val
  | compare_exchange n ptr expected desired =>
      atomic_compare_exchange is_lock_free n ptr expected desired
  | fetch op n ptr val => atomic_fetch is_lock_free op n ptr val

end ObjectCall

/-- The calls with their locks, which are free while they are 0. -/
def code : LockedCalls.Code ObjectCall (BitVec 64) (BitVec 64) Addr Byte Bytes Ret where
  lock c := if c.lock_free is_lock_free then none else some (lock_for_pointer c.ptr)
  prog c := c.body is_lock_free
  unlocked := 0
  locked := 1
  foot c := {a | (a - c.ptr).toNat < c.size}

end code

/-! ### What the calls should do -/

/-- The result, the thread's memory and shared memory after a call that nobody
interrupts. -/
def ObjectCall.effect : SharedObject.Effect ObjectCall Bytes Bytes Ret
  | load_c size src dest, p, m => (.void, write p dest (read size m src), m)
  | store_c size dest src, p, m => (.void, p, write m dest (read size p src))
  | compare_exchange_c size ptr expected desired, p, m =>
      if read size m ptr = read size p expected then (.int 1, p, write m ptr (read size p desired))
      else (.int 0, write p expected (read size m ptr), m)
  | exchange_c size ptr val old, p, m =>
      (.void, write p old (read size m ptr), write m ptr (read size p val))
  | load n src, p, m => (.value (read n m src), p, m)
  | store _ dest val, p, m => (.void, p, write m dest val)
  | exchange n dest val, p, m => (.value (read n m dest), p, write m dest val)
  | compare_exchange n ptr expected desired, p, m =>
      if read n m ptr = read n p expected then (.int 1, p, write m ptr desired)
      else (.int 0, write p expected (read n m ptr), m)
  | fetch op n ptr val, p, m => (.value (read n m ptr), p,
      write m ptr (bytes (op.apply (number (read n m ptr)) (number val))))

/-! ### Reading and writing -/

section memory
variable {n : ℕ} {m : Bytes} {a b : Addr} {v w : Value n}

theorem read_apply (n : ℕ) (m : Bytes) (a : Addr) (i : Fin n) : read n m a i = m (a + BitVec.ofNat 64 i) :=
  rfl

theorem write_of_lt (h : (b - a).toNat < n) : write m a v b = v ⟨(b - a).toNat, h⟩ := dif_pos h

theorem write_of_le (h : n ≤ (b - a).toNat) : write m a v b = m b := dif_neg (by omega)

@[simp] theorem write_zero (m : Bytes) (a : Addr) (v : Value 0) : write m a v = m :=
  funext fun _ => write_of_le (Nat.zero_le _)

/-- An address of an object is its start and an offset. -/
theorem add_sub_toNat (a b : Addr) : a + BitVec.ofNat 64 (b - a).toNat = b := by
  rw [BitVec.ofNat_toNat, BitVec.setWidth_eq]
  bv_omega

theorem offset_toNat {i : ℕ} (hi : i < 2 ^ 64) (a : Addr) : (a + BitVec.ofNat 64 i - a).toNat = i := by
  rw [show a + BitVec.ofNat 64 i - a = BitVec.ofNat 64 i by bv_omega, BitVec.toNat_ofNat]
  exact Nat.mod_eq_of_lt hi

@[simp] theorem write_read (n : ℕ) (m : Bytes) (a : Addr) : write m a (read n m a) = m := by
  funext b
  by_cases h : (b - a).toNat < n
  · rw [write_of_lt h, read_apply, add_sub_toNat]
  · rw [write_of_le (by omega)]

@[simp] theorem write_write : write (write m a v) a w = write m a w := by
  funext b
  by_cases h : (b - a).toNat < n
  · rw [write_of_lt h, write_of_lt h]
  · rw [write_of_le (by omega), write_of_le (by omega), write_of_le (by omega)]

theorem read_write (hn : n ≤ 2 ^ 64) : read n (write m a v) a = v := by
  funext i
  have hi : (a + BitVec.ofNat 64 i - a).toNat = i := offset_toNat (by omega) a
  rw [read_apply, write_of_lt (by rw [hi]; exact i.isLt)]
  exact congrArg v (Fin.ext hi)

/-- An object beside the one that is written. -/
theorem read_write_beside {k : ℕ} {w : Value k} (hn : n ≤ 2 ^ 64)
    (h : ∀ c, (c - b).toNat < n → k ≤ (c - a).toNat) : read n (write m a w) b = read n m b := by
  funext i
  have hi : (b + BitVec.ofNat 64 i - b).toNat = i := offset_toNat (by omega) b
  exact write_of_le (h _ (by rw [hi]; exact i.isLt))

/-- The first byte, and then the others. -/
theorem write_succ {v : Value (n + 1)} (hn : n < 2 ^ 64) :
    write (Function.update m a (v 0)) (a + 1) (fun i : Fin n => v i.succ) = write m a v := by
  funext b
  by_cases hb : b = a
  · subst hb
    rw [write_of_le (by bv_omega), Function.update_self, write_of_lt (by simp)]
    congr 1
    exact Fin.ext (by simp)
  · have hne : (b - a).toNat ≠ 0 := by bv_omega
    have hsucc : (b - (a + 1)).toNat + 1 = (b - a).toNat := by bv_omega
    by_cases h : (b - a).toNat < n + 1
    · rw [write_of_lt (by omega : (b - (a + 1)).toNat < n), write_of_lt h]
      exact congrArg v (Fin.ext hsucc)
    · rw [write_of_le (by omega), write_of_le (by omega), Function.update_of_ne hb]

theorem read_succ (n : ℕ) (m : Bytes) (a : Addr) :
    (fun i : Fin n => read (n + 1) m a i.succ) = read n m (a + 1) := by
  funext i
  rw [read_apply, read_apply, Fin.val_succ]
  congr 1
  bv_omega

/-- Numbers are read back. -/
theorem number_bytes (x : BitVec (8 * n)) : number (bytes x) = x := by
  have hlist : List.ofFn (bytes x) = Binary.toBytes n x.toNat := by
    refine List.ext_get (by simp) fun i h₁ h₂ => ?_
    simp [bytes]
  have hlt : x.toNat < 256 ^ n := by
    have hx := x.isLt
    rwa [pow_mul] at hx
  rw [number, hlist, Binary.ofBytes_toBytes hlt, BitVec.ofNat_toNat, BitVec.setWidth_eq]

end memory

/-! ### What the code does -/

section run
variable {n : ℕ} {p m : Bytes} {k : Code} {f : Value n → Value n} {g : Value n → Code}

@[simp] theorem run_access (ptr : Addr) : (access n ptr f g).run p m
    = (g (read n m ptr)).run p (write m ptr (f (read n m ptr))) := rfl

@[simp] theorem run_get (ptr : Addr) : (get n ptr g).run p m = (g (read n p ptr)).run p m := rfl

@[simp] theorem run_put (ptr : Addr) (v : Value n) :
    (put ptr v k).run p m = k.run (write p ptr v) m := rfl

theorem run_memcpy_out (hn : n ≤ 2 ^ 64) (dest src : Addr) :
    (memcpy_out n dest src k).run p m = k.run (write p dest (read n m src)) m := by
  induction n generalizing dest src p with
  | zero =>
    rw [write_zero]
    rfl
  | succ n ih =>
    show (memcpy_out n (dest + 1) (src + 1) k).run (Function.update p dest (m src)) m = _
    have hfirst : m src = read (n + 1) m src 0 := by simp [read_apply]
    rw [ih (by omega), ← read_succ, hfirst, write_succ (by omega)]

theorem run_memcpy_in (hn : n ≤ 2 ^ 64) (dest src : Addr) :
    (memcpy_in n dest src k).run p m = k.run p (write m dest (read n p src)) := by
  induction n generalizing dest src m with
  | zero =>
    rw [write_zero]
    rfl
  | succ n ih =>
    show (memcpy_in n (dest + 1) (src + 1) k).run p (Function.update m dest (p src)) = _
    have hfirst : p src = read (n + 1) p src 0 := by simp [read_apply]
    rw [ih (by omega), ← read_succ, hfirst, write_succ (by omega)]

theorem run_compare_exchange_strong (ptr expected : Addr) (desired : Value n) :
    (compare_exchange_strong n ptr expected desired).run p m
      = if read n m ptr = read n p expected then (.int 1, p, write m ptr desired)
        else (.int 0, write p expected (read n m ptr), m) := by
  unfold compare_exchange_strong
  rw [run_get, run_access]
  split_ifs with h
  · rfl
  · rw [write_read]
    rfl

/-- `memcmp` returns 0 if and only if the bytes are the same. -/
theorem run_memcmp (s1 s2 : Addr) (k : ℤ → Code) :
    ∃ r, (memcmp n s1 s2 k).run p m = (k r).run p m ∧ (r = 0 ↔ read n m s1 = read n p s2) := by
  induction n generalizing s1 s2 with
  | zero => exact ⟨0, rfl, fun _ => funext fun i => i.elim0, fun _ => rfl⟩
  | succ n ih =>
    have hfirst (m : Bytes) (s : Addr) : read (n + 1) m s 0 = m s := by simp [read_apply]
    -- the first bytes that differ decide
    by_cases heq : m s1 = p s2
    · obtain ⟨r, hrun, hr⟩ := ih (s1 + 1) (s2 + 1)
      refine ⟨r, ?_, hr.trans ?_⟩
      · rw [← hrun]
        show (ite _ _ _ : Code).run p m = _
        rw [if_neg (not_not_intro heq)]
      · rw [← read_succ, ← read_succ]
        constructor
        · intro hrest
          funext i
          refine Fin.cases ?_ (fun i => congrFun hrest i) i
          rw [hfirst, hfirst, heq]
        · exact fun hall => funext fun i => congrFun hall i.succ
    · refine ⟨(m s1).toNat - (p s2).toNat, ?_, ?_⟩
      · show (ite _ _ _ : Code).run p m = _
        rw [if_pos heq]
        rfl
      · constructor
        · intro hzero
          exact absurd (BitVec.eq_of_toNat_eq (by omega)) heq
        · intro hall
          have h0 := congrFun hall 0
          rw [hfirst, hfirst] at h0
          exact absurd h0 heq

end run

/-! ### Permitted calls -/

section lawful
variable {is_lock_free : ℕ → Bool} {n : ℕ} {S : Set Addr} {m m' : Bytes} {k : Code}
  {f : Value n → Value n} {g : Value n → Code} {a ptr : Addr}

/-- The type of the lock-free action, if there is one, has the size asked for. -/
def Fits (is_lock_free : ℕ → Bool) (size : ℕ) : Prop :=
  size < 2 ^ 31 ∧ ∀ n ∈ LOCK_FREE_CASES is_lock_free size, n = size

/-- Calls that are as they should be.  The generic exchange under a lock needs
two buffers, and the generic store is correct under a lock only. -/
def ObjectCall.Proper (is_lock_free : ℕ → Bool) : ObjectCall → Prop
  | load_c size _ _ | compare_exchange_c size _ _ _ => Fits is_lock_free size
  | store_c size _ _ => size < 2 ^ 31 ∧ LOCK_FREE_CASES is_lock_free size = none
  | exchange_c size _ val old => Fits is_lock_free size ∧
      (LOCK_FREE_CASES is_lock_free size = none →
        ∀ a : Addr, (a - val).toNat < size → size ≤ (a - old).toNat)
  | load n _ | store n _ _ | exchange n _ _ | compare_exchange n _ _ _ | fetch _ n _ _ =>
      n ∈ [1, 2, 4, 8]

/-- **A call that nobody interrupts has the effect that it should have.** -/
theorem ObjectCall.run_body {c : ObjectCall} (hc : c.Proper is_lock_free) (p m : Bytes) :
    (c.body is_lock_free).run p m = c.effect p m := by
  -- each call splits as its body does, into the accesses with a lock and without
  cases c with
  | load_c size src dest =>
    obtain ⟨hsize, hfits⟩ := hc
    show (atomic_load_c is_lock_free size src dest).run p m = _
    unfold atomic_load_c
    split
    · rename_i n hn
      obtain rfl := hfits n hn
      simp [effect, Prog.run]
    · rw [run_memcpy_out (by omega)]
      rfl
  | store_c size dest src =>
    obtain ⟨hsize, hnone⟩ := hc
    show (atomic_store_c is_lock_free size dest src).run p m = _
    unfold atomic_store_c
    rw [hnone]
    show (memcpy_in size dest src _).run p m = _
    rw [run_memcpy_in (by omega)]
    rfl
  | compare_exchange_c size ptr expected desired =>
    obtain ⟨hsize, hfits⟩ := hc
    show (atomic_compare_exchange_c is_lock_free size ptr expected desired).run p m = _
    unfold atomic_compare_exchange_c
    split
    · rename_i n hn
      obtain rfl := hfits n hn
      exact run_compare_exchange_strong ptr expected _
    · -- the branch with the lock compares, then copies one way or the other
      obtain ⟨r, hrun, hr⟩ := run_memcmp (n := size) (p := p) (m := m) ptr expected fun r =>
        if r = 0 then memcpy_in size ptr desired (.ret (.int 1))
        else memcpy_out size expected ptr (.ret (.int 0))
      rw [hrun]
      by_cases heq : read size m ptr = read size p expected
      · rw [if_pos (hr.mpr heq), run_memcpy_in (by omega), effect, if_pos heq]
        rfl
      · rw [if_neg (fun h => heq (hr.mp h)), run_memcpy_out (by omega), effect, if_neg heq]
        rfl
  | exchange_c size ptr val old =>
    obtain ⟨⟨hsize, hfits⟩, hbuffers⟩ := hc
    show (atomic_exchange_c is_lock_free size ptr val old).run p m = _
    unfold atomic_exchange_c
    split
    · rename_i n hn
      obtain rfl := hfits n hn
      rfl
    · rename_i hnone
      -- the buffers lie beside each other, so copying the old value out spares the new one
      rw [run_memcpy_out (by omega), run_memcpy_in (by omega),
        read_write_beside (by omega) (hbuffers hnone)]
      rfl
  | load n src => simp [body, atomic_load, effect, Prog.run]
  | store n dest val => rfl
  | exchange n dest val =>
    show (atomic_exchange is_lock_free n dest val).run p m = _
    unfold atomic_exchange
    split_ifs
    · rfl
    · simp [effect, Prog.run]
  | compare_exchange n ptr expected desired =>
    show (atomic_compare_exchange is_lock_free n ptr expected desired).run p m = _
    unfold atomic_compare_exchange
    split_ifs
    · exact run_compare_exchange_strong ptr expected desired
    · rw [run_access, run_get, effect]
      split_ifs
      · simp [Prog.run]
      · simp [Prog.run]
  | fetch op n ptr val =>
    show (atomic_fetch is_lock_free op n ptr val).run p m = _
    unfold atomic_fetch
    split_ifs
    · rfl
    · simp [effect, Prog.run]

/-- An access to an object that lies in `S`. -/
theorem within_access (hS : ∀ b : Addr, (b - ptr).toNat < n → b ∈ S) (hn : n ≤ 2 ^ 64)
    (hg : ∀ v, (g v).Within S) : (access n ptr f g).Within S := by
  have hread {m m' : Bytes} (hm : Set.EqOn m m' S) : read n m ptr = read n m' ptr := by
    funext i
    refine hm (hS _ ?_)
    rw [offset_toNat (by omega)]
    exact i.isLt
  refine .shared ⟨fun m b hb => ?_, fun m m' hm b hb => ?_⟩ (fun m m' hm => ?_) fun m => hg _
  · exact write_of_le (not_lt.mp fun hlt => hb (hS b hlt))
  · rw [hread hm]
    by_cases hlt : (b - ptr).toNat < n
    · rw [write_of_lt hlt, write_of_lt hlt]
    · rw [write_of_le (by omega), write_of_le (by omega)]
      exact hm hb
  · rw [hread hm]

theorem local_id : Prog.Local S (id : Bytes → Bytes) := ⟨fun _ _ _ => rfl, fun _ _ hm => hm⟩

theorem local_update (b : Addr) (x : Byte) (hb : b ∈ S) :
    Prog.Local S fun m : Bytes => Function.update m b x := by
  refine ⟨fun m a ha => Function.update_of_ne ?_ .., fun m m' hm a ha => ?_⟩
  · rintro rfl
    exact ha hb
  by_cases hab : a = b
  · subst hab
    rw [Function.update_self, Function.update_self]
  · rw [Function.update_of_ne hab, Function.update_of_ne hab]
    exact hm ha

theorem within_memcpy_out (dest src : Addr) (hS : ∀ b : Addr, (b - src).toNat < n → b ∈ S)
    (hn : n ≤ 2 ^ 64) (hk : k.Within S) : (memcpy_out n dest src k).Within S := by
  induction n generalizing dest src with
  | zero => exact hk
  | succ n ih =>
    have hrest (b : Addr) (hb : (b - (src + 1)).toNat < n) : b ∈ S := hS b (by bv_omega)
    refine .shared local_id (fun m m' hm => ?_) fun m => .own fun _ => ih _ _ hrest (by omega)
    rw [hm (hS src (by simp))]

theorem within_memcpy_in (dest src : Addr) (hS : ∀ b : Addr, (b - dest).toNat < n → b ∈ S)
    (hn : n ≤ 2 ^ 64) (hk : k.Within S) : (memcpy_in n dest src k).Within S := by
  induction n generalizing dest src with
  | zero => exact hk
  | succ n ih =>
    have hrest (b : Addr) (hb : (b - (dest + 1)).toNat < n) : b ∈ S := hS b (by bv_omega)
    refine .own fun p => .shared (local_update dest _ (hS dest (by simp))) (fun m m' hm => rfl)
      fun m => ih _ _ hrest (by omega)

theorem within_memcmp (s1 s2 : Addr) (hS : ∀ b : Addr, (b - s1).toNat < n → b ∈ S)
    (hn : n ≤ 2 ^ 64) {k : ℤ → Code} (hk : ∀ r, (k r).Within S) : (memcmp n s1 s2 k).Within S := by
  induction n generalizing s1 s2 with
  | zero => exact hk 0
  | succ n ih =>
    have hrest (b : Addr) (hb : (b - (s1 + 1)).toNat < n) : b ∈ S := hS b (by bv_omega)
    have hs1 : s1 ∈ S := hS s1 (by simp)
    refine .shared local_id (fun m m' hm => ?_) fun m => .own fun p => ?_
    · rw [hm hs1]
    · split_ifs
      · refine .shared local_id (fun m m' hm => ?_) fun m => .own fun p => hk _
        rw [hm hs1]
      · exact ih _ _ hrest (by omega)

theorem within_get (ptr : Addr) (hg : ∀ v, (g v).Within S) : (get n ptr g).Within S :=
  .own fun _ => hg _

theorem within_put (ptr : Addr) (v : Value n) (hk : k.Within S) : (put ptr v k).Within S :=
  .own fun _ => hk

theorem within_compare_exchange_strong (expected : Addr) (desired : Value n)
    (hS : ∀ b : Addr, (b - ptr).toNat < n → b ∈ S) (hn : n ≤ 2 ^ 64) :
    (compare_exchange_strong n ptr expected desired).Within S := by
  refine within_get expected fun e => within_access hS hn fun v => ?_
  split_ifs
  · exact .ret _
  · exact within_put expected v (.ret _)

/-- The code of a call accesses no more than the object. -/
theorem ObjectCall.body_within {c : ObjectCall} (hc : c.Proper is_lock_free) :
    (c.body is_lock_free).Within {a | (a - c.ptr).toNat < c.size} := by
  have hknown {n : ℕ} (hn : n ∈ [1, 2, 4, 8]) : n ≤ 2 ^ 64 := by
    simp only [List.mem_cons, List.not_mem_nil, or_false] at hn
    omega
  cases c with
  | load_c size src dest =>
    obtain ⟨hsize, hfits⟩ := hc
    show (atomic_load_c is_lock_free size src dest).Within {a | (a - src).toNat < size}
    unfold atomic_load_c
    split
    · rename_i n hn
      obtain rfl := hfits n hn
      exact within_access (fun b hb => hb) (by omega) fun v => within_put dest v (.ret _)
    · exact within_memcpy_out dest src (fun b hb => hb) (by omega) (.ret _)
  | store_c size dest src =>
    obtain ⟨hsize, hnone⟩ := hc
    show (atomic_store_c is_lock_free size dest src).Within {a | (a - dest).toNat < size}
    unfold atomic_store_c
    rw [hnone]
    exact within_memcpy_in dest src (fun b hb => hb) (by omega) (.ret _)
  | compare_exchange_c size ptr expected desired =>
    obtain ⟨hsize, hfits⟩ := hc
    show (atomic_compare_exchange_c is_lock_free size ptr expected desired).Within {a | (a - ptr).toNat < size}
    unfold atomic_compare_exchange_c
    split
    · rename_i n hn
      obtain rfl := hfits n hn
      exact within_get desired fun d =>
        within_compare_exchange_strong expected d (fun b hb => hb) (by omega)
    · refine within_memcmp ptr expected (fun b hb => hb) (by omega) fun r => ?_
      split_ifs
      · exact within_memcpy_in ptr desired (fun b hb => hb) (by omega) (.ret _)
      · exact within_memcpy_out expected ptr (fun b hb => hb) (by omega) (.ret _)
  | exchange_c size ptr val old =>
    obtain ⟨⟨hsize, hfits⟩, -⟩ := hc
    show (atomic_exchange_c is_lock_free size ptr val old).Within {a | (a - ptr).toNat < size}
    unfold atomic_exchange_c
    split
    · rename_i n hn
      obtain rfl := hfits n hn
      exact within_get val fun x => within_access (fun b hb => hb) (by omega) fun v =>
        within_put old v (.ret _)
    · exact within_memcpy_out old ptr (fun b hb => hb) (by omega)
        (within_memcpy_in ptr val (fun b hb => hb) (by omega) (.ret _))
  | load n src =>
    show (atomic_load n src).Within {a | (a - src).toNat < n}
    exact within_access (fun b hb => hb) (hknown hc) fun v => .ret _
  | store n dest val =>
    show (atomic_store n dest val).Within {a | (a - dest).toNat < n}
    exact within_access (fun b hb => hb) (hknown hc) fun v => .ret _
  | exchange n dest val =>
    show (atomic_exchange is_lock_free n dest val).Within {a | (a - dest).toNat < n}
    unfold atomic_exchange
    split_ifs
    · exact within_access (fun b hb => hb) (hknown hc) fun v => .ret _
    · exact within_access (fun b hb => hb) (hknown hc) fun v =>
        within_access (fun b hb => hb) (hknown hc) fun _ => .ret _
  | compare_exchange n ptr expected desired =>
    show (atomic_compare_exchange is_lock_free n ptr expected desired).Within {a | (a - ptr).toNat < n}
    unfold atomic_compare_exchange
    split_ifs
    · exact within_compare_exchange_strong expected desired (fun b hb => hb) (hknown hc)
    · refine within_access (fun b hb => hb) (hknown hc) fun v => within_get expected fun e => ?_
      split_ifs
      · exact within_access (fun b hb => hb) (hknown hc) fun _ => .ret _
      · exact within_access (fun b hb => hb) (hknown hc) fun v => within_put expected v (.ret _)
  | fetch op n ptr val =>
    show (atomic_fetch is_lock_free op n ptr val).Within {a | (a - ptr).toNat < n}
    unfold atomic_fetch
    split_ifs
    · exact within_access (fun b hb => hb) (hknown hc) fun v => .ret _
    · exact within_access (fun b hb => hb) (hknown hc) fun v =>
        within_access (fun b hb => hb) (hknown hc) fun _ => .ret _

theorem once_compare_exchange_strong (ptr expected : Addr) (desired : Value n) :
    (compare_exchange_strong n ptr expected desired).Once := by
  refine .own fun p => .shared fun m => ?_
  dsimp only
  split_ifs
  · exact .ret _
  · exact .own fun _ => .ret _

/-- A call without a lock accesses its object once. -/
theorem ObjectCall.body_once {c : ObjectCall} (hc : c.Proper is_lock_free)
    (hfree : c.lock_free is_lock_free = true) : (c.body is_lock_free).Once := by
  cases c with
  | load_c size src dest =>
    obtain ⟨n, hn⟩ := Option.isSome_iff_exists.mp hfree
    show (atomic_load_c is_lock_free size src dest).Once
    unfold atomic_load_c
    rw [hn]
    exact .shared fun m => .own fun _ => .ret _
  | store_c size dest src =>
    -- the store of a lock-free size is excluded
    have hsome : (LOCK_FREE_CASES is_lock_free size).isSome = true := hfree
    rw [hc.2] at hsome
    cases hsome
  | compare_exchange_c size ptr expected desired =>
    obtain ⟨n, hn⟩ := Option.isSome_iff_exists.mp hfree
    show (atomic_compare_exchange_c is_lock_free size ptr expected desired).Once
    unfold atomic_compare_exchange_c
    rw [hn]
    exact .own fun p => once_compare_exchange_strong ptr expected _
  | exchange_c size ptr val old =>
    obtain ⟨n, hn⟩ := Option.isSome_iff_exists.mp hfree
    show (atomic_exchange_c is_lock_free size ptr val old).Once
    unfold atomic_exchange_c
    rw [hn]
    exact .own fun p => .shared fun m => .own fun _ => .ret _
  | load n src => exact .shared fun m => .ret _
  | store n dest val => exact .shared fun m => .ret _
  | exchange n dest val =>
    have hn : is_lock_free n = true := hfree
    show (atomic_exchange is_lock_free n dest val).Once
    unfold atomic_exchange
    rw [if_pos hn]
    exact .shared fun m => .ret _
  | compare_exchange n ptr expected desired =>
    have hn : is_lock_free n = true := hfree
    show (atomic_compare_exchange is_lock_free n ptr expected desired).Once
    unfold atomic_compare_exchange
    rw [if_pos hn]
    exact once_compare_exchange_strong ptr expected desired
  | fetch op n ptr val =>
    have hn : is_lock_free n = true := hfree
    show (atomic_fetch is_lock_free op n ptr val).Once
    unfold atomic_fetch
    rw [if_pos hn]
    exact .shared fun m => .ret _

/-- The lowest four bits of a pointer do not matter for its lock. -/
theorem lock_for_pointer_congr {ptr ptr' : Addr} (h : ptr >>> 4 = ptr' >>> 4) :
    lock_for_pointer ptr = lock_for_pointer ptr' := by
  unfold lock_for_pointer
  rw [h]

/-- An address of both objects. -/
def ObjectCall.Overlaps (c d : ObjectCall) : Prop :=
  ∃ a : Addr, (a - c.ptr).toNat < c.size ∧ (a - d.ptr).toNat < d.size

variable {ι : Type} {Permitted : ι → ObjectCall → Prop}

/-- Objects that overlap start in the same 16 bytes, and are accessed with a
lock only or without only. -/
structure Disciplined (is_lock_free : ℕ → Bool) (Permitted : ι → ObjectCall → Prop) : Prop where
  proper : ∀ {i c}, Permitted i c → c.Proper is_lock_free
  block : ∀ {i j c d}, Permitted i c → Permitted j d → c.Overlaps d → c.ptr >>> 4 = d.ptr >>> 4
  same : ∀ {i j c d}, Permitted i c → Permitted j d → c.Overlaps d →
    c.lock_free is_lock_free = d.lock_free is_lock_free

theorem Disciplined.lawful (h : Disciplined is_lock_free Permitted) :
    LockedCalls.Lawful (code is_lock_free) Permitted ObjectCall.effect where
  locked_ne := show (1 : BitVec 64) ≠ 0 by decide
  within := fun hc => ObjectCall.body_within (h.proper hc)
  once := by
    intro i c hc hlock
    refine ObjectCall.body_once (h.proper hc) ?_
    by_contra hfree
    simp [code, hfree] at hlock
  run_eq := fun hc p m => ObjectCall.run_body (h.proper hc) p m
  same_lock := by
    rintro i j c d a - hc hd hca hda
    have hover : c.Overlaps d := ⟨a, hca, hda⟩
    show (if _ then none else some _) = if _ then none else some _
    rw [h.same hc hd hover, lock_for_pointer_congr (h.block hc hd hover)]

/-- Threads that make the calls with `Permitted` on shared memory `m₀`. -/
def objectCalls [DecidableEq ι] (is_lock_free : ℕ → Bool) (Permitted : ι → ObjectCall → Prop) (m₀ : Bytes) :
    System (LockedCalls.State ι ObjectCall (BitVec 64) (BitVec 64) Addr Byte Bytes Ret) :=
  LockedCalls.implementation (code is_lock_free) Permitted m₀

/-- **All calls together are linearizable**, whatever the threads, the sizes
that need no lock and the interleaving; and when no call is under way, shared
memory is what the calls have made of it. -/
theorem atomic_calls_linearizable [DecidableEq ι] (h : Disciplined is_lock_free Permitted) (m₀ : Bytes)
    {s : LockedCalls.State ι ObjectCall (BitVec 64) (BitVec 64) Addr Byte Bytes Ret}
    (hs : (objectCalls is_lock_free Permitted m₀).Reachable s) :
    ∃ m, SharedObject.Linearizable ObjectCall.effect m₀ s.history m ∧
      ((∀ i, s.thread i = .idle) → s.mem = m) :=
  LockedCalls.linearizable_of_reachable h.lawful hs

end lawful

/-- Two threads add 1 to a word; the second one comes while the first one has
the lock. -/
theorem atomic_calls_linearizable_two : ∃ (m : Bytes) (history : _), history.length = 4 ∧
    SharedObject.Linearizable ObjectCall.effect (fun _ => 0)
      (history : List (SharedObject.Event (Fin 2) ObjectCall Bytes Ret)) m ∧
    number (read 4 m 0x1000) = 2 := by
  have h₀ : (objectCalls (ι := Fin 2) (fun _ => false)
      (fun _ c => c = .fetch .add 4 0x1000 (bytes 1)) fun _ => 0).Reachable _ := .init rfl
  have h := ((((((((((((((h₀.step (.call 0 _ (fun _ => 0) rfl rfl rfl)).step
    (.call 1 _ (fun _ => 0) rfl rfl rfl)).step (.acquire 0 rfl rfl rfl)).step
    (.miss 1 rfl rfl)).step (.access 0 rfl)).step (.retry 1 rfl)).step (.access 0 rfl)).step
    (.unlock 0 rfl rfl)).step (.acquire 1 rfl rfl rfl)).step (.access 1 rfl)).step
    (.access 1 rfl)).step (.unlock 1 rfl rfl)).step (.answer 0 rfl)).step (.answer 1 rfl))
  have hdisciplined : Disciplined (ι := Fin 2) (fun _ => false)
      (fun _ c => c = .fetch .add 4 0x1000 (bytes 1)) := by
    constructor
    · rintro i c rfl
      show 4 ∈ [1, 2, 4, 8]
      decide
    · rintro i j c d rfl rfl -
      rfl
    · rintro i j c d rfl rfl -
      rfl
  obtain ⟨m, hlin, hmem⟩ := atomic_calls_linearizable hdisciplined _ h
  refine ⟨m, _, rfl, hlin, ?_⟩
  rw [← hmem (Fin.forall_fin_two.mpr ⟨rfl, rfl⟩)]
  decide +kernel

/-! ### The generic store -/

section store
variable {is_lock_free : ℕ → Bool} {size n : ℕ}

theorem is_lock_free_of_cases (h : LOCK_FREE_CASES is_lock_free size = some n) :
    is_lock_free n = true := by
  unfold LOCK_FREE_CASES at h
  split at h
  · grind
  · grind
  · grind
  · cases h

/-- **The generic store of a size that needs no lock** stores nothing, and
undoes what another thread does between its two accesses: an exchange has been
answered, and memory is what it was. -/
theorem store_c_undoes (h : LOCK_FREE_CASES is_lock_free size = some n) (dest src : Addr) :
    (∀ p m, ((ObjectCall.store_c size dest src).body is_lock_free).run p m = (.void, p, m)) ∧
      ∀ (m₀ p : Bytes) (v : Value n), ∃ s, (objectCalls (ι := Fin 2) is_lock_free
        (fun i c => c = if i = 0 then .store_c size dest src else .exchange n dest v) m₀).Reachable s ∧
        s.history = [.invoke 0 (.store_c size dest src) p, .invoke 1 (.exchange n dest v) p,
          .answer 1 (.value (read n m₀ dest)) p, .answer 0 .void p] ∧ s.mem = m₀ := by
  -- it reads the object and stores what it has read
  have hcode : (ObjectCall.store_c size dest src).body is_lock_free
      = access n dest id fun v => access n dest (fun _ => v) fun _ => .ret .void := by
    show atomic_store_c is_lock_free size dest src = _
    unfold atomic_store_c
    rw [h]
  have hlock : (code is_lock_free).lock (.store_c size dest src) = none := by
    show (if (LOCK_FREE_CASES is_lock_free size).isSome then none else _) = none
    rw [h]
    rfl
  have hn := is_lock_free_of_cases h
  have hcode' (v : Value n) : (ObjectCall.exchange n dest v).body is_lock_free
      = access n dest (fun _ => v) fun tmp => .ret (.value tmp) := if_pos hn
  have hlock' (v : Value n) : (code is_lock_free).lock (.exchange n dest v) = none := if_pos hn
  refine ⟨fun p m => ?_, fun m₀ p v => ?_⟩
  · rw [hcode]
    simp [Prog.run]
  · have h₀ : (objectCalls (ι := Fin 2) is_lock_free
        (fun i c => c = if i = 0 then .store_c size dest src else .exchange n dest v) m₀).Reachable _ :=
      .init rfl
    -- the exchange of thread 1 falls between the two accesses of thread 0
    have h := ((((((h₀.step (.call_free 0 _ p rfl rfl hlock)).step
      (.call_free 1 _ p rfl rfl (hlock' v))).step
      (.access_free 0 (congrArg (LockedCalls.Place.free _ p) hcode))).step
      (.access_free 1 (congrArg (LockedCalls.Place.free _ p) (hcode' v)))).step
      (.access_free 0 rfl)).step (.answer 1 rfl)).step (.answer 0 rfl)
    refine ⟨_, h, ?_, ?_⟩
    · show [_, _, SharedObject.Event.answer 1 (Ret.value (read n (write m₀ dest (read n m₀ dest)) dest)) p,
        _] = _
      rw [write_read]
      rfl
    · show write (write (write m₀ dest (read n m₀ dest)) dest v) dest (read n m₀ dest) = m₀
      rw [write_read, write_write, write_read]

/-- An exchange of 1 that is lost. -/
theorem store_c_undoes_one : ∃ s, (objectCalls (ι := Fin 2) (fun _ => true) (fun i c =>
      c = if i = 0 then .store_c 8 0x1000 0x2000 else .exchange 8 0x1000 (bytes 1)) fun _ => 0).Reachable s ∧
    s.history.length = 4 ∧ s.mem 0x1007 = 0 := by
  have hcases : LOCK_FREE_CASES (fun _ => true) 8 = some 8 := rfl
  obtain ⟨s, hs, hhistory, hmem⟩ :=
    (store_c_undoes hcases 0x1000 0x2000).2 (fun _ => 0) (fun _ => 0) (bytes 1)
  refine ⟨s, hs, ?_, ?_⟩
  · rw [hhistory]
    rfl
  · rw [hmem]

end store

end Atomic

end Cheritest
