import Shang.Lib.Memory

/-!
# The allocator of `my_malloc.c`

The allocator keeps its blocks in the memory it hands out: a header of 40 bytes
(`BLOCK_SZIE`) and behind it the data. The header has five fields, `size` at
offset 0, `prev` at 8, `next` at 16, the `int` `free` at 24 and `magic_ptr` at
32; the data begin at 40. Addresses and sizes are numbers below `2 ^ 64`, and
the arithmetic on them is reduced modulo `2 ^ 64` wherever the code's is.

The program's break moves between `base` and `room`; what lies between `base`
and the next page boundary above the break is mapped. A read or a write
elsewhere is a fault: the call does not return, and the function's value is
`none`. The functions below make their reads and writes in the code's order.
-/

namespace Shang.Malloc

open Lib

/-- The heap segment of the process and the allocator's own variable. -/
structure Heap where
  base : Nat
  room : Nat
  brk : Nat
  mem : Memory
  /-- The variable `first_block`. -/
  first : Nat
  low : 4096 ≤ base
  lower : base ≤ brk
  upper : brk ≤ room
  high : room < 2 ^ 63

namespace Heap

variable (h : Heap)

/-- The end of the last mapped page. -/
def limit : Nat :=
  (h.brk + 4095) / 4096 * 4096

/-- The `n` bytes from `a` on can be accessed. -/
def Mapped (n a : Nat) : Prop :=
  h.base ≤ a ∧ a + n ≤ h.limit

instance {n a : Nat} : Decidable (h.Mapped n a) :=
  inferInstanceAs (Decidable (_ ∧ _))

/-- The heap after storing `v` in the `n` bytes from `a` on. -/
def put (n a v : Nat) : Heap :=
  { h with mem := store h.mem n a v }

def read (n a : Nat) : Option Nat :=
  if h.Mapped n a then some (load h.mem n a) else none

def write (n a v : Nat) : Option Heap :=
  if h.Mapped n a then some (h.put n a v) else none

/-- Move the break to `b`, unless the kernel refuses. Pages that are mapped
again later are zero then. -/
def moveBrk (b : Nat) : Option Heap :=
  if ok : h.base ≤ b ∧ b ≤ h.room then
    some { h with
      brk := b
      mem := fun x => if h.limit ≤ x then 0 else h.mem x
      lower := ok.1
      upper := ok.2 }
  else
    none

/-- The system call `sbrk` on an increment that the caller computed as an
unsigned number; `none` is the result -1. -/
def sbrk (increment : Nat) : Option Heap :=
  if increment < 2 ^ 63 then
    h.moveBrk (h.brk + increment)
  else if 2 ^ 64 - increment ≤ h.brk then
    h.moveBrk (h.brk - (2 ^ 64 - increment))
  else
    none

/-- The system call `brk`, whose result the code ignores. -/
def brkTo (b : Nat) : Heap :=
  (h.moveBrk b).getD h

end Heap

/-! ## Headers -/

/-- The fields of `struct block`. -/
inductive Field
  | size
  | prev
  | next
  | free
  | magic
  deriving DecidableEq

namespace Field

def offset : Field → Nat
  | size => 0
  | prev => 8
  | next => 16
  | free => 24
  | magic => 32

def width : Field → Nat
  | free => 4
  | _ => 8

end Field

namespace Heap

variable (h : Heap)

/-- What the field of the block at `b` holds. -/
def get (f : Field) (b : Nat) : Nat :=
  load h.mem f.width (b + f.offset)

/-- The heap after an assignment to the field of the block at `b`. -/
def set (f : Field) (b v : Nat) : Heap :=
  h.put f.width (b + f.offset) v

/-- Read a field of the block at `b`. -/
def fetch (f : Field) (b : Nat) : Option Nat :=
  h.read f.width (b + f.offset)

/-- Assign to a field of the block at `b`. -/
def assign (f : Field) (b v : Nat) : Option Heap :=
  h.write f.width (b + f.offset) v

end Heap

/-! ## The helpers -/

/-- The difference of two `size_t`. -/
def sub64 (a b : Nat) : Nat :=
  (a + (2 ^ 64 - b)) % 2 ^ 64

def align8 (size : Nat) : Nat :=
  if size % 8 = 0 then size else ((size / 8 + 1) * 8) % 2 ^ 64

def getBlock (dataPtr : Nat) : Nat :=
  sub64 dataPtr 40

/-- `ptr->data` -/
def data (ptr : Nat) : Nat :=
  (ptr + 40) % 2 ^ 64

/-- The number of rounds of a loop `for (i = 0; i < s8; i++)` whose bound was
assigned to the `int` `s8`. -/
def toInt (n : Nat) : Nat :=
  if n % 2 ^ 32 < 2 ^ 31 then n % 2 ^ 32 else 0

/-- Copy `count` words, the `i`th one first. -/
def copyWords (src dst : Nat) : Nat → Nat → Heap → Option Heap
  | 0, _, h => some h
  | count + 1, i, h => do
    let word ← h.read 8 ((src + 8 * i) % 2 ^ 64)
    let h ← h.write 8 ((dst + 8 * i) % 2 ^ 64) word
    copyWords src dst count (i + 1) h

/-- The heap after the copy and the value returned. -/
def copyBlockData (h : Heap) (srcPtr dstPtr : Nat) : Option (Heap × Bool) := do
  let srcSize ← h.fetch .size srcPtr
  if srcSize = 0 then
    some (h, false)
  else
    let dstSize ← h.fetch .size dstPtr
    if dstSize = 0 then
      some (h, false)
    else
      let s8 := if dstSize ≤ srcSize then align8 dstSize / 8 else align8 srcSize / 8
      let h ← copyWords (data srcPtr) (data dstPtr) (toInt s8) 0 h
      some (h, true)

def validAddr (h : Heap) (dataPtr : Nat) : Option Bool :=
  if h.first = 0 then
    some false
  else if h.first < dataPtr ∧ dataPtr < h.brk then do
    let magic ← h.fetch .magic (getBlock dataPtr)
    some (dataPtr == magic)
  else
    some false

/-- The heap afterwards and the new block, or 0. -/
def extendHeap (h : Heap) (last alignSize : Nat) : Option (Heap × Nat) :=
  let ptr := h.brk
  match h.sbrk ((40 + alignSize) % 2 ^ 64) with
  | none => some (h, 0)
  | some h => do
    let h ← h.assign .size ptr alignSize
    let h ← h.assign .prev ptr 0
    let h ← h.assign .next ptr 0
    let h ← if last = 0 then some h else
      (h.assign .next last ptr).bind fun h => h.assign .prev ptr last
    let h ← h.assign .free ptr 0
    let h ← h.assign .magic ptr (data ptr)
    some (h, ptr)

/-- Whether the block at `ptr` is free and has room for `size` bytes. -/
def suits (h : Heap) (size ptr : Nat) : Option Bool := do
  let free ← h.fetch .free ptr
  if free = 0 then
    some false
  else
    let ptrSize ← h.fetch .size ptr
    some (decide (size ≤ ptrSize))

/-- The loop of `find_block` from the block `ptr` on: the block found, or 0, and
the last block passed. `none` is a fault or a loop that goes around for ever. -/
def findLoop (h : Heap) (size : Nat) : Nat → Nat → Nat → Option (Nat × Nat)
  | 0, _, _ => none
  | fuel + 1, last, ptr =>
    if ptr = 0 then
      some (0, last)
    else do
      let found ← suits h size ptr
      if found then
        some (ptr, last)
      else
        let next ← h.fetch .next ptr
        findLoop h size fuel ptr next

/-- A walk that has passed as many blocks as there are mapped addresses has
been at some block twice, and never ends. -/
def findBlock (h : Heap) (last size : Nat) : Option (Nat × Nat) :=
  findLoop h size h.limit last h.first

/-- The loop of `block_zero`: `count` bytes from `ptr` on. -/
def blockZero : Nat → Nat → Heap → Option Heap
  | 0, _, h => some h
  | count + 1, ptr, h => do
    let h ← h.write 1 ptr 0
    blockZero count ((ptr + 1) % 2 ^ 64) h

/-- The heap afterwards and the block returned, or 0 where there is too little
to split off. -/
def blockSplit (h : Heap) (oldPtr oldAlignSize : Nat) : Option (Heap × Nat) := do
  let oldSize ← h.fetch .size oldPtr
  if sub64 oldSize oldAlignSize < 40 + 8 then
    some (h, 0)
  else
    let newptr := (data oldPtr + oldAlignSize) % 2 ^ 64
    let newSize := sub64 oldSize ((40 + oldAlignSize) % 2 ^ 64)
    let h ← blockZero newSize newptr h
    let h ← h.assign .free newptr 1
    let h ← h.assign .size newptr newSize
    let h ← h.assign .prev newptr oldPtr
    let oldNext ← h.fetch .next oldPtr
    let h ← h.assign .next newptr oldNext
    let h ← h.assign .magic newptr (data newptr)
    let h ← h.assign .size oldPtr oldAlignSize
    let h ← h.assign .next oldPtr newptr
    some (h, oldPtr)

/-- The heap after `block_merge(block_ptr)`, which returns its argument. -/
def blockMerge (h : Heap) (blockPtr : Nat) : Option Heap := do
  let nextTmp ← h.fetch .next blockPtr
  if nextTmp = 0 then
    some h
  else
    let free ← h.fetch .free nextTmp
    if free = 0 then
      some h
    else
      let size ← h.fetch .size blockPtr
      let nextSize ← h.fetch .size nextTmp
      let h ← h.assign .size blockPtr ((size + (40 + nextSize)) % 2 ^ 64)
      let next ← h.fetch .next nextTmp
      let h ← h.assign .next blockPtr next
      let h ← if next = 0 then some h else h.assign .prev next blockPtr
      let nextSize ← h.fetch .size nextTmp
      blockZero ((40 + nextSize) % 2 ^ 64) nextTmp h

/-! ## The interface -/

/-- The heap after `my_malloc(size)` and the pointer returned. -/
def myMalloc (h : Heap) (size : Nat) : Option (Heap × Nat) :=
  let alignSize := align8 size
  if size = 0 then
    some (h, 0)
  else if h.first = 0 then do
    let (h, ptr) ← extendHeap h 0 alignSize
    if ptr = 0 then
      some (h, 0)
    else
      some ({ h with first := ptr }, data ptr)
  else do
    let (ptr, lastPtr) ← findBlock h h.first alignSize
    if ptr = 0 then
      let (h, ptr) ← extendHeap h lastPtr alignSize
      if ptr = 0 then
        some (h, 0)
      else
        some (h, data ptr)
    else
      let ptrSize ← h.fetch .size ptr
      let (h, ptr) ←
        if 40 + 8 ≤ sub64 ptrSize alignSize then blockSplit h ptr alignSize else some (h, ptr)
      let h ← h.assign .free ptr 0
      some (h, data ptr)

/-- The loop of `my_calloc`: zero `count` words, the `i`th one first. -/
def zeroWords (new : Nat) : Nat → Nat → Heap → Option Heap
  | 0, _, h => some h
  | count + 1, i, h => do
    let h ← h.write 8 ((new + 8 * i) % 2 ^ 64) 0
    zeroWords new count (i + 1) h

/-- The heap after `my_calloc(num, size)` and the pointer returned. -/
def myCalloc (h : Heap) (num size : Nat) : Option (Heap × Nat) := do
  let (h, new) ← myMalloc h (num * size % 2 ^ 64)
  if new = 0 then
    some (h, 0)
  else
    let s8 := align8 (num * size % 2 ^ 64) / 8
    let h ← zeroWords new s8 0 h
    some (h, new)

/-- The `free` of a neighbour, 0 where there is none. -/
def neighbourFree (h : Heap) (ptr : Nat) : Option Nat :=
  if ptr = 0 then some 0 else h.fetch .free ptr

/-- The first conditional of `my_free`: merge the block into a free predecessor.
The heap afterwards and the block that results. -/
def mergePrev (h : Heap) (blockPtr : Nat) : Option (Heap × Nat) := do
  let prev ← h.fetch .prev blockPtr
  let prevFree ← neighbourFree h prev
  if prevFree = 0 then
    some (h, blockPtr)
  else
    let h ← blockMerge h prev
    some (h, prev)

/-- The second conditional: merge a free successor into the block. -/
def mergeNext (h : Heap) (blockPtr : Nat) : Option Heap := do
  let next ← h.fetch .next blockPtr
  let nextFree ← neighbourFree h next
  if nextFree = 0 then
    some h
  else
    blockMerge h blockPtr

/-- The last conditional: give a last block back to the kernel. -/
def giveBack (h : Heap) (blockPtr : Nat) : Option Heap := do
  let prev ← h.fetch .prev blockPtr
  let next ← h.fetch .next blockPtr
  if prev = 0 ∧ next = 0 then
    let h := if blockPtr = h.first then { h with first := 0 } else h
    some (h.brkTo blockPtr)
  else if next = 0 then
    some (h.brkTo blockPtr)
  else
    some h

/-- The heap after `my_free(ptr)`. -/
def myFree (h : Heap) (ptr : Nat) : Option Heap := do
  let valid ← validAddr h ptr
  if valid then
    let h ← h.assign .free (getBlock ptr) 1
    let (h, blockPtr) ← mergePrev h (getBlock ptr)
    let h ← mergeNext h blockPtr
    giveBack h blockPtr
  else
    some h

/-- The last part of `my_realloc`: move the data to a block of their own. -/
def moveData (h : Heap) (srcDataPtr alignSize : Nat) : Option (Heap × Nat) := do
  let (h, dstDataPtr) ← myMalloc h alignSize
  if dstDataPtr = 0 then
    some (h, 0)
  else if getBlock dstDataPtr = 0 then
    some (h, 0)
  else
    let (h, ret) ← copyBlockData h (getBlock srcDataPtr) (getBlock dstDataPtr)
    if ret then
      let h ← myFree h srcDataPtr
      some (h, dstDataPtr)
    else
      some (h, 0)

/-- The heap after `my_realloc(src_data_ptr, size)` and the pointer returned. -/
def myRealloc (h : Heap) (srcDataPtr size : Nat) : Option (Heap × Nat) :=
  let alignSize := align8 size
  if srcDataPtr = 0 then
    myMalloc h alignSize
  else do
    let srcPtr := getBlock srcDataPtr
    let srcSize ← h.fetch .size srcPtr
    if srcSize = alignSize then
      some (h, srcDataPtr)
    else if 40 + 8 ≤ sub64 srcSize alignSize then
      let (h, tmpPtr) ← blockSplit h srcPtr alignSize
      if tmpPtr = 0 then
        moveData h srcDataPtr alignSize
      else
        some (h, data tmpPtr)
    else
      let next ← h.fetch .next srcPtr
      let nextFree ← neighbourFree h next
      if nextFree ≠ 0 ∧ alignSize ≤ (srcSize + srcSize + 40) % 2 ^ 64 then
        let h ← blockMerge h srcPtr
        some (h, srcPtr)
      else
        moveData h srcDataPtr alignSize

end Shang.Malloc
