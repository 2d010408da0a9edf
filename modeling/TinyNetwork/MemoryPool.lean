import TinyNetwork.LinkedList
import TinyNetwork.MachineWord
import TinyNetwork.Transition

/-! The memory pool of `memory/MemoryPool.h` and `memory/MemoryPool.cc`. Pointers are
addresses below `2^64` with 0 for null. The memory is seen through the types the pool
reads and writes it with: headers of small blocks, records of large blocks, and bytes
handed out. What `posix_memalign` answers is an input, with whatever the returned memory
holds. The loops along the lists take fuel, and are `none` when it does not last. -/
namespace TinyNetwork
open MachineWord Transition LinkedList

def PAGE_SIZE : ℕ := 4096

def MP_ALIGNMENT : ℕ := 16

def mp_align_ptr (p : ℕ) : ℕ :=
  sizeAdd p (MP_ALIGNMENT - 1) &&& (2 ^ 64 - MP_ALIGNMENT)

theorem mp_align_ptr_eq {p : ℕ} (h : p + 15 < 2 ^ 64) :
    mp_align_ptr p = (p + 15) / 16 * 16 := by
  rw [mp_align_ptr, MP_ALIGNMENT, sizeAdd_of_lt h]
  exact land_sixteens h

structure SmallNode where
  end_ : ℕ
  last_ : ℕ
  quote_ : ℕ
  failed_ : ℕ
  next_ : ℕ

structure LargeNode where
  address_ : ℕ
  size_ : ℕ
  next_ : ℕ

structure Pool where
  largeList_ : ℕ
  head_ : ℕ
  current_ : ℕ

def SmallNode.size : ℕ := 32
def LargeNode.size : ℕ := 24
def Pool.size : ℕ := 24

/-- One answer of `posix_memalign`: its result, what the output pointer holds afterwards
(on failure, what it held before) and the leftover content at the start of the block. -/
structure Memalign where
  ret : ℤ
  memptr : ℕ
  content : SmallNode

/-- `pool` is the `Pool` at `pool_`. `live` lists the blocks of the OS with their sizes,
and `freed` the pointers passed to `free`. -/
structure MemoryPool where
  pool_ : ℕ
  pool : Pool
  small : ℕ → SmallNode
  large : ℕ → LargeNode
  bytes : ℕ → Byte
  live : List (ℕ × ℕ)
  freed : List ℕ

namespace MemoryPool

def increment (n : ℕ) : ℕ := (n + 1) % 2 ^ 32

def setSmall (s : MemoryPool) (a : ℕ) (node : SmallNode) : MemoryPool :=
  { s with small := Function.update s.small a node }

def setLarge (s : MemoryPool) (a : ℕ) (node : LargeNode) : MemoryPool :=
  { s with large := Function.update s.large a node }

theorem setSmall_self (s : MemoryPool) (a : ℕ) (node : SmallNode) :
    (s.setSmall a node).small a = node := Function.update_self _ _ _

theorem setSmall_other (s : MemoryPool) {a b : ℕ} (node : SmallNode) (other : b ≠ a) :
    (s.setSmall a node).small b = s.small b := Function.update_of_ne other _ _

theorem setLarge_self (s : MemoryPool) (a : ℕ) (node : LargeNode) :
    (s.setLarge a node).large a = node := Function.update_self _ _ _

theorem setLarge_other (s : MemoryPool) {a b : ℕ} (node : LargeNode) (other : b ≠ a) :
    (s.setLarge a node).large b = s.large b := Function.update_of_ne other _ _

theorem update_field {β γ : Type*} (f : β → γ) {g : ℕ → β} {a : ℕ} {v : β}
    (same : f v = f (g a)) (b : ℕ) : f (Function.update g a v b) = f (g b) := by
  by_cases at_ : b = a
  · rw [at_, Function.update_self, same]
  · rw [Function.update_of_ne at_]

def posix_memalign (s : MemoryPool) (size : ℕ) (os : Memalign) : MemoryPool :=
  if os.ret = 0 then
    { s.setSmall os.memptr os.content with live := (os.memptr, size) :: s.live }
  else s

def free (s : MemoryPool) (p : ℕ) : MemoryPool :=
  { s with live := s.live.filter fun block => block.1 ≠ p, freed := s.freed ++ [p] }

def skip : ℕ → (ℕ → SmallNode) → ℕ → ℕ → Option ((ℕ → SmallNode) × ℕ × ℕ)
  | 0, _, _, _ => none
  | fuel + 1, small, current, cur =>
    let node := small cur
    if node.next_ = 0 then some (small, current, cur)
    else
      skip fuel (Function.update small cur { node with failed_ := increment node.failed_ })
        (if 5 ≤ node.failed_ then node.next_ else current) node.next_

def mallocSmallNode (s : MemoryPool) (fuel size : ℕ) (os : Memalign) :
    Option (ℕ × MemoryPool) :=
  if os.ret ≠ 0 then some (0, s)
  else
    let s := s.posix_memalign PAGE_SIZE os
    let block := os.memptr
    let node := { s.small block with end_ := sizeAdd block PAGE_SIZE, next_ := 0 }
    let addr := mp_align_ptr (sizeAdd block SmallNode.size)
    let node := { node with last_ := sizeAdd addr size, quote_ := increment node.quote_ }
    let s := s.setSmall block node
    (skip fuel s.small s.pool.current_ s.pool.current_).map fun (small, current, cur) =>
      (addr, { s with
        small := Function.update small cur { small cur with next_ := block }
        pool := { s.pool with current_ := current } })

/-- The first block from `cur` on that passes the test `cur->end_ - addr >= size`, a
`ptrdiff_t` compared with an `unsigned long`; `some none` when none does. -/
def fit : ℕ → (ℕ → SmallNode) → ℕ → ℕ → Option (Option ℕ)
  | 0, _, _, _ => none
  | fuel + 1, small, cur, size =>
    if cur = 0 then some none
    else if size ≤ sizeSub (small cur).end_ (mp_align_ptr (small cur).last_) then some (some cur)
    else fit fuel small (small cur).next_ size

def mallocSmall (s : MemoryPool) (fuel size : ℕ) (os : Memalign) : Option (ℕ × MemoryPool) :=
  (fit fuel s.small s.pool.current_ size).bind fun
    | some cur =>
      let node := s.small cur
      let addr := mp_align_ptr node.last_
      some (addr, s.setSmall cur
        { node with quote_ := increment node.quote_, last_ := sizeAdd addr size })
    | none => s.mallocSmallNode fuel size os

/-- The scan for a freed record looks at five records at most. -/
def freedRecord (large : ℕ → LargeNode) : ℕ → ℕ → Option ℕ
  | 0, _ => none
  | left + 1, node =>
    if node = 0 then none
    else if (large node).address_ = 0 then some node
    else freedRecord large left (large node).next_

/-- The nested `malloc(sizeof(LargeNode))` is a small one. A zero result of
`posix_memalign` is taken for the failure. -/
def mallocLargeNode (s : MemoryPool) (fuel size : ℕ) (os nested : Memalign) :
    Option (ℕ × MemoryPool) :=
  let addr := os.memptr
  let s := s.posix_memalign size os
  if os.ret = 0 then some (0, s)
  else
    match freedRecord s.large 5 s.pool.largeList_ with
    | some node =>
      some (addr, s.setLarge node
        { s.large node with size_ := size % 2 ^ 32, address_ := addr })
    | none =>
      (s.mallocSmall fuel LargeNode.size nested).map fun (node, s) =>
        if node = 0 then (0, s.free addr)
        else
          (addr, { s.setLarge node ⟨addr, size % 2 ^ 32, s.pool.largeList_⟩ with
            pool := { s.pool with largeList_ := node } })

def malloc (s : MemoryPool) (fuel size : ℕ) (os nested : Memalign) : Option (ℕ × MemoryPool) :=
  if size = 0 then some (0, s)
  else if PAGE_SIZE - SmallNode.size < size then s.mallocLargeNode fuel size os nested
  else s.mallocSmall fuel size os

def clear (s : MemoryPool) (addr size : ℕ) : MemoryPool :=
  { s with bytes := fun a => if addr ≤ a ∧ a < addr + size then 0 else s.bytes a }

def calloc (s : MemoryPool) (fuel size : ℕ) (os nested : Memalign) : Option (ℕ × MemoryPool) :=
  (s.malloc fuel size os nested).map fun (addr, s) =>
    (addr, if addr ≠ 0 then s.clear addr size else s)

def freeLarge : ℕ → MemoryPool → ℕ → Option MemoryPool
  | 0, _, _ => none
  | fuel + 1, s, node =>
    if node = 0 then some s
    else
      let record := s.large node
      freeLarge fuel (if record.address_ ≠ 0 then s.free record.address_ else s) record.next_

def rewind : ℕ → (ℕ → SmallNode) → ℕ → Option (ℕ → SmallNode)
  | 0, _, _ => none
  | fuel + 1, small, node =>
    if node = 0 then some small
    else
      rewind fuel (Function.update small node
        { small node with last_ := sizeAdd node SmallNode.size, failed_ := 0, quote_ := 0 })
        (small node).next_

def resetPool (s : MemoryPool) (fuel : ℕ) : Option MemoryPool :=
  (freeLarge fuel s s.pool.largeList_).bind fun s =>
    (rewind fuel s.small s.pool.head_).map fun small =>
      { s with small := small, pool := { s.pool with largeList_ := 0, current_ := s.pool.head_ } }

def decrement (n : ℕ) : ℕ := (n + (2 ^ 32 - 1)) % 2 ^ 32

def findLarge : ℕ → (ℕ → LargeNode) → ℕ → ℕ → Option (Option ℕ)
  | 0, _, _, _ => none
  | fuel + 1, large, node, p =>
    if node = 0 then some none
    else if (large node).address_ = p then some (some node)
    else findLarge fuel large (large node).next_ p

def findSmall : ℕ → (ℕ → SmallNode) → ℕ → ℕ → Option (Option ℕ)
  | 0, _, _, _ => none
  | fuel + 1, small, node, p =>
    if node = 0 then some none
    else if node ≤ p ∧ p ≤ (small node).end_ then some (some node)
    else findSmall fuel small (small node).next_ p

def release (s : MemoryPool) (a : ℕ) : MemoryPool :=
  let node := { s.small a with quote_ := decrement (s.small a).quote_ }
  if node.quote_ = 0 then
    let last :=
      if a = s.pool.head_ then sizeAdd (sizeAdd s.pool_ Pool.size) SmallNode.size
      else sizeAdd a SmallNode.size
    { s.setSmall a { node with last_ := last, failed_ := 0 } with
      pool := { s.pool with current_ := s.pool.head_ } }
  else s.setSmall a node

def freeMemory (s : MemoryPool) (fuel p : ℕ) : Option MemoryPool :=
  (findLarge fuel s.large s.pool.largeList_ p).bind fun
    | some node =>
      let record := s.large node
      some ((s.free record.address_).setLarge node { record with size_ := 0, address_ := 0 })
    | none => (findSmall fuel s.small s.pool.head_ p).map fun
      | some a => s.release a
      | none => s

/-- An answer of `posix_memalign` to `createPool`, with the leftover content where the `Pool`
and the header of the first block go. -/
structure PoolMemalign where
  ret : ℤ
  memptr : ℕ
  pool : Pool
  head : SmallNode

def memalignPool (s : MemoryPool) (os : PoolMemalign) : MemoryPool :=
  if os.ret = 0 then
    { s.setSmall (sizeAdd os.memptr Pool.size) os.head with
      pool_ := os.memptr
      pool := os.pool
      live := (os.memptr, PAGE_SIZE) :: s.live }
  else s

def layOut (s : MemoryPool) : MemoryPool :=
  let head := sizeAdd s.pool_ Pool.size
  { s.setSmall head { s.small head with
      last_ := sizeAdd head SmallNode.size
      end_ := sizeAdd s.pool_ PAGE_SIZE
      failed_ := 0 } with
    pool := ⟨0, head, head⟩ }

/-- A zero result of `posix_memalign` is taken for the failure. Writing through a null `pool_`
is a crash, `none` here. -/
def createPool (s : MemoryPool) (os : PoolMemalign) : Option (Bool × MemoryPool) :=
  let s := s.memalignPool os
  if os.ret = 0 then some (false, s)
  else if s.pool_ = 0 then none
  else some (true, s.layOut)

end MemoryPool

end TinyNetwork
