import FlashApp.Bytes
import FlashApp.Loops

namespace FlashApp.LwipMem

open Bytes

/-- How a call of the library ends. After a failed assertion the processor
stays in an endless loop. -/
inductive Outcome (α : Type) where
  | running
  | assertion (message : String)
  | done (a : α)

namespace Outcome

variable {α β : Type}

def bind : Outcome α → (α → Outcome β) → Outcome β
  | running, _ => running
  | assertion message, _ => assertion message
  | done a, f => f a

instance : Monad Outcome where
  pure := done
  bind := bind

def ofOption : Option α → Outcome α
  | none => running
  | some a => done a

@[simp] theorem pure_eq (a : α) : (pure a : Outcome α) = done a := rfl

@[simp] theorem done_bind (a : α) (f : α → Outcome β) : (done a >>= f) = f a := rfl

@[simp] theorem running_bind (f : α → Outcome β) : ((running : Outcome α) >>= f) = running := rfl

@[simp] theorem assertion_bind (message : String) (f : α → Outcome β) :
    (assertion message >>= f) = assertion message := rfl

theorem bind_eq_done {x : Outcome α} {f : α → Outcome β} {b : β} :
    (x >>= f) = done b ↔ ∃ a, x = done a ∧ f a = done b := by
  cases x <;> simp

theorem ofOption_eq_done {x : Option α} {a : α} : ofOption x = done a ↔ x = some a := by
  cases x <;> simp [ofOption]

end Outcome

def lwipAssert (message : String) (assertion : Prop) [Decidable assertion] : Outcome Unit :=
  if assertion then .done () else .assertion message

theorem lwipAssert_of {message : String} {assertion : Prop} [Decidable assertion] (h : assertion) :
    lwipAssert message assertion = .done () := if_pos h

theorem lwipAssert_of_not {message : String} {assertion : Prop} [Decidable assertion] (h : ¬ assertion) :
    lwipAssert message assertion = .assertion message := if_neg h

def memAlignment : Nat := 4

def lwipMemAlignSize (size : Nat) : Nat := add32 size (memAlignment - 1) &&& 0xfffffffc

/-- Two words and a byte, with the padding. -/
def sizeofStructMem : Nat := 12

def minSizeAligned : Nat := 12

def memSizeAligned : Nat := 65536

/-- The heap area is part of the memory; the other fields are the static
variables of the file. -/
structure Heap where
  memory : Memory
  ram : Nat
  ramEnd : Nat
  lfree : Nat

namespace Heap

def next (h : Heap) (mem : Nat) : Nat := word h.memory mem

def prev (h : Heap) (mem : Nat) : Nat := word h.memory (add32 mem 4)

def used (h : Heap) (mem : Nat) : UInt8 := h.memory (add32 mem 8)

def setNext (h : Heap) (mem v : Nat) : Heap := { h with memory := store h.memory mem (toLe32 v) }

def setPrev (h : Heap) (mem v : Nat) : Heap := { h with memory := store h.memory (add32 mem 4) (toLe32 v) }

def setUsed (h : Heap) (mem : Nat) (v : UInt8) : Heap := { h with memory := store h.memory (add32 mem 8) [v] }

end Heap

def ptrToMem (h : Heap) (ptr : Nat) : Nat := add32 h.ram ptr

def memToPtr (h : Heap) (mem : Nat) : Nat := sub32 mem h.ram

def combine (h : Heap) (fst snd : Nat) : Heap :=
  let h := h.setNext fst (h.next snd)
  if h.next snd ≠ memSizeAligned then h.setPrev (ptrToMem h (h.next snd)) (memToPtr h fst) else h

def plugForward (h : Heap) (mem : Nat) : Heap :=
  let nmem := ptrToMem h (h.next mem)
  if mem ≠ nmem ∧ h.used nmem = 0 ∧ nmem ≠ h.ramEnd then
    combine (if h.lfree = nmem then { h with lfree := mem } else h) mem nmem
  else h

def plugBackward (h : Heap) (mem : Nat) : Heap :=
  let pmem := ptrToMem h (h.prev mem)
  if pmem ≠ mem ∧ h.used pmem = 0 then
    combine (if h.lfree = mem then { h with lfree := pmem } else h) pmem mem
  else h

def plugHoles (h : Heap) (mem : Nat) : Outcome Heap := do
  lwipAssert "plug_holes: mem >= ram" (h.ram ≤ mem)
  lwipAssert "plug_holes: mem < ram_end" (mem < h.ramEnd)
  lwipAssert "plug_holes: mem->used == 0" (h.used mem = 0)
  lwipAssert "plug_holes: mem->next <= MEM_SIZE_ALIGNED" (h.next mem ≤ memSizeAligned)
  pure (plugBackward (plugForward h mem) mem)

/-- `ram` is the aligned start of the heap area. -/
def memInit (memory : Memory) (ram : Nat) : Heap :=
  let h : Heap := ⟨memory, ram, add32 ram memSizeAligned, ram⟩
  let h := ((h.setNext ram memSizeAligned).setPrev ram 0).setUsed ram 0
  ((h.setUsed h.ramEnd 1).setNext h.ramEnd memSizeAligned).setPrev h.ramEnd memSizeAligned

def memLinkValid (h : Heap) (mem : Nat) : Bool :=
  let rmemIdx := memToPtr h mem
  let nmem := ptrToMem h (h.next mem)
  let pmem := ptrToMem h (h.prev mem)
  !(h.next mem > memSizeAligned || h.prev mem > memSizeAligned ||
    (h.prev mem != rmemIdx && h.next pmem != rmemIdx) || (nmem != h.ramEnd && h.prev nmem != rmemIdx))

def memFree (h : Heap) (rmem : Nat) : Outcome Heap := do
  if rmem = 0 then return h
  lwipAssert "mem_free: sanity check alignment" (rmem &&& (memAlignment - 1) = 0)
  let mem := sub32 rmem sizeofStructMem
  lwipAssert "mem_free: illegal memory" (¬ (mem < h.ram ∨ add32 rmem minSizeAligned > h.ramEnd))
  lwipAssert "mem_free: illegal memory: double free" (h.used mem ≠ 0)
  lwipAssert "mem_free: illegal memory: non-linked: double free" (memLinkValid h mem = true)
  let h := h.setUsed mem 0
  let h := if mem < h.lfree then { h with lfree := mem } else h
  plugHoles h mem

/-- The size of a request, expanded for the alignment. -/
def alignedRequest (size : Nat) : Nat :=
  if lwipMemAlignSize size < minSizeAligned then minSizeAligned else lwipMemAlignSize size

/-- The new header `ptr2` between `mem` and the header `next`. -/
def linkAfter (h : Heap) (mem ptr2 next : Nat) : Heap :=
  let mem2 := ptrToMem h ptr2
  let h := ((h.setUsed mem2 0).setNext mem2 next).setPrev mem2 (memToPtr h mem)
  h.setNext mem ptr2

def linkBack (h : Heap) (ptr2 : Nat) : Heap :=
  let next := h.next (ptrToMem h ptr2)
  if next ≠ memSizeAligned then h.setPrev (ptrToMem h next) ptr2 else h

def memTrim (h : Heap) (rmem newSize : Nat) : Outcome (Heap × Nat) := do
  let newsize := alignedRequest newSize
  if newsize > memSizeAligned ∨ newsize < newSize then return (h, 0)
  lwipAssert "mem_trim: legal memory" (h.ram ≤ rmem ∧ rmem < h.ramEnd)
  let mem := sub32 rmem sizeofStructMem
  let ptr := memToPtr h mem
  let size := sub32 (sub32 (h.next mem) ptr) sizeofStructMem
  lwipAssert "mem_trim can only shrink memory" (newsize ≤ size)
  if newsize = size then return (h, rmem)
  let mem2 := ptrToMem h (h.next mem)
  let ptr2 := add32 (add32 ptr sizeofStructMem) newsize
  if h.used mem2 = 0 then
    lwipAssert "invalid next ptr" (h.next mem ≠ memSizeAligned)
    let next := h.next mem2
    let h := { h with lfree := if h.lfree = mem2 then ptrToMem h ptr2 else h.lfree }
    return (linkBack (linkAfter h mem ptr2 next) ptr2, rmem)
  else if add32 (add32 newsize sizeofStructMem) minSizeAligned ≤ size then
    lwipAssert "invalid next ptr" (h.next mem ≠ memSizeAligned)
    let next := h.next mem
    let h := { h with lfree := if ptrToMem h ptr2 < h.lfree then ptrToMem h ptr2 else h.lfree }
    return (linkBack (linkAfter h mem ptr2 next) ptr2, rmem)
  else return (h, rmem)

/-- The room for data behind the header at `ptr`. -/
def room (h : Heap) (ptr : Nat) : Nat := sub32 (h.next (ptrToMem h ptr)) (add32 ptr sizeofStructMem)

def adjustLfree (fuel : Nat) (h : Heap) (mem : Nat) : Outcome Heap :=
  if mem = h.lfree then do
    let cur ← Outcome.ofOption (While.whileDo (fun cur => h.used cur != 0 && cur != h.ramEnd)
      (fun cur => ptrToMem h (h.next cur)) fuel h.lfree)
    lwipAssert "mem_malloc: !lfree->used" (cur = h.ramEnd ∨ h.used cur = 0)
    pure { h with lfree := cur }
  else pure h

/-- Allocate the block at `ptr`: the rest of a large block becomes a block of
its own. -/
def takeBlock (h : Heap) (ptr size : Nat) : Outcome Heap :=
  let mem := ptrToMem h ptr
  if add32 (add32 size sizeofStructMem) minSizeAligned ≤ room h ptr then do
    let ptr2 := add32 (add32 ptr sizeofStructMem) size
    lwipAssert "invalid next ptr" (ptr2 ≠ memSizeAligned)
    pure (linkBack ((linkAfter h mem ptr2 (h.next mem)).setUsed mem 1) ptr2)
  else pure (h.setUsed mem 1)

/-- The body of the search loop, when it has found a block. -/
def allocate (fuel : Nat) (h : Heap) (ptr size : Nat) : Outcome (Heap × Nat) := do
  let mem := ptrToMem h ptr
  let h ← takeBlock h ptr size
  let h ← adjustLfree fuel h mem
  lwipAssert "mem_malloc: allocated memory not above ram_end."
    (add32 (add32 mem sizeofStructMem) size ≤ h.ramEnd)
  lwipAssert "mem_malloc: allocated memory properly aligned." (add32 mem sizeofStructMem % memAlignment = 0)
  lwipAssert "mem_malloc: sanity check alignment" (mem &&& (memAlignment - 1) = 0)
  pure (h, add32 mem sizeofStructMem)

/-- The search for a free block, beginning with the lowest one. -/
def findBlock (fuel : Nat) (h : Heap) (size : Nat) : Option (Option Nat) :=
  Scan.scan (fun ptr => ptr < memSizeAligned - size)
    (fun ptr => h.used (ptrToMem h ptr) == 0 && size ≤ room h ptr)
    (fun ptr => h.next (ptrToMem h ptr)) fuel (memToPtr h h.lfree)

def memMalloc (fuel : Nat) (h : Heap) (sizeIn : Nat) : Outcome (Heap × Nat) := do
  if sizeIn = 0 then return (h, 0)
  let size := alignedRequest sizeIn
  if size > memSizeAligned ∨ size < sizeIn then return (h, 0)
  match ← Outcome.ofOption (findBlock fuel h size) with
  | none => return (h, 0)
  | some ptr => allocate fuel h ptr size

end FlashApp.LwipMem
