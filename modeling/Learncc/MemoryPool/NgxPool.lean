/-
`ngx_mempool` (inc/memory_pool/ngx_mempool.h,
src/memory_pool/ngx_mempool.cc): small requests from blocks in a chain, large
ones from `malloc`, with a list of nodes that record them and a list of cleanup
handlers. The nodes of both lists are pool memory, so memory is modelled: its
words of eight bytes, which the pool reads and writes only where they are
aligned.

The headers of the blocks are kept apart as records, and `current` is a place
in the chain. What malloc answers is an input. Beside what the code has there
are records of what is handed out and of what was run and freed.
-/
import Learncc.Lib.Extents
import Learncc.Lib.Linked
import Learncc.Lib.Run
import Learncc.MemoryPool.SizeClass

namespace Learncc.Ngx

def NGX_ALIGNMENT : ℕ := 8

/-- `sizeof(ngx_pool_t)`. -/
def POOL : ℕ := 64

/-- `sizeof(ngx_pool_data_t)`. -/
def DATA : ℕ := 32

/-- `sizeof(ngx_pool_large_t)`: `next`, then `alloc`. -/
def LARGE : ℕ := 16

/-- `sizeof(ngx_pool_cleanup_t)`: `handler`, `data`, `next`. -/
def CLEANUP : ℕ := 24

/-- `NGX_MAX_ALLOC_FROM_POOL`. -/
def MAX : ℕ := 4095

/-- `ngx_align_ptr(p, NGX_ALIGNMENT)`. -/
def alignPtr (p : ℕ) : ℕ := SizeClass.roundUpTo p NGX_ALIGNMENT

/-- What a piece of memory was handed out for. -/
inductive Owner
  | user
  | largeNode
  | cleanupNode
deriving Repr, DecidableEq

structure Piece where
  start : ℕ
  size : ℕ
  aligned : Bool
  owner : Owner
deriving Repr, DecidableEq

def Piece.extent (g : Piece) : Extent := ⟨g.start, g.size⟩

/-- A block of the chain, with the pieces handed out of it. -/
structure Block where
  base : ℕ
  last : ℕ
  endPtr : ℕ
  failed : ℕ
  given : List Piece
deriving Repr, DecidableEq

def Block.extent (b : Block) : Extent := ⟨b.base, b.endPtr - b.base⟩

/-- A cleanup node the user has, with what is set in it. -/
structure Node where
  addr : ℕ
  handler : ℕ
  data : ℕ
deriving Repr, DecidableEq

/-- `word a` is the word at the aligned address `a`. The records: what malloc
has given and not got back, the large blocks, the number of nodes of the large
list, the cleanup nodes (the last first), the handlers run, and whether `free`
was ever called with anything else than a block of malloc's. -/
structure Pool where
  blocks : List Block
  current : ℕ
  max : ℕ
  large : ℕ
  cleanup : ℕ
  word : ℕ → ℕ
  answers : List (Option ℕ)
  heap : List Extent
  chunks : List Piece
  nlarge : ℕ
  added : List Node
  ran : List (ℕ × ℕ)
  badFree : Bool

/-! ## Memory -/

/-- A block that malloc may give. -/
def Fresh (heap : List Extent) (e : Extent) : Prop :=
  0 < e.start ∧ e.start % 16 = 0 ∧ e.start + e.size ≤ 2 ^ 63 ∧ ∀ r ∈ heap, e.Apart r

instance (heap : List Extent) (e : Extent) : Decidable (Fresh heap e) := inferInstanceAs (Decidable (_ ∧ _))

namespace Pool

/-- The next answer of malloc; without one the run does not go on. -/
def malloc (s : Pool) (bytes : ℕ) : Option (Pool × Option ℕ) :=
  match s.answers with
  | [] => none
  | none :: rest => some ({ s with answers := rest }, none)
  | some p :: rest =>
    if Fresh s.heap ⟨p, bytes⟩ then some ({ s with heap := ⟨p, bytes⟩ :: s.heap, answers := rest }, some p) else none

def free (s : Pool) (p : ℕ) : Pool :=
  if p = 0 then s
  else if s.heap.any (fun e => e.start = p) then { s with heap := s.heap.eraseP fun e => e.start = p }
  else { s with badFree := true }

def store (s : Pool) (a v : ℕ) : Pool := { s with word := Function.update s.word a v }

/-- `ngx_memzero(p, size)`, word by word: the bytes of a word that are among
those set to zero are taken out of it. -/
def memzero (s : Pool) (p size : ℕ) : Pool :=
  { s with word := fun a =>
      if size = 0 ∨ a + 8 ≤ p ∨ p + size ≤ a then s.word a
      else
        ((List.range 8).map fun i =>
          if p ≤ a + i ∧ a + i < p + size then 0 else s.word a / 256 ^ i % 256 * 256 ^ i).sum }

/-! ## Small requests -/

/-- `(size_t)(p->d.end - m)`. -/
def room (b : Block) (m : ℕ) : ℕ := size64 (b.endPtr + 2 ^ 64 - m)

/-- Where the block would put a request. -/
def place (b : Block) (align : Bool) : ℕ := if align then alignPtr b.last else b.last

/-- The loop over the blocks. -/
def tryBlocks (size : ℕ) (align : Bool) (owner : Owner) : List Block → Option (List Block × ℕ)
  | [] => none
  | b :: rest =>
    if size ≤ room b (place b align) then
      some ({ b with
        last := place b align + size
        given := ⟨place b align, size, align, owner⟩ :: b.given } :: rest, place b align)
    else (tryBlocks size align owner rest).map fun r => (b :: r.1, r.2)

/-- The loop that counts the failures, from the `i`-th block on: the blocks,
and where `current` is then. -/
def countFailed : ℕ → ℕ → List Block → List Block × ℕ
  | _, current, [] => ([], current)
  | _, current, [b] => ([b], current)
  | i, current, b :: c :: rest =>
    let r := countFailed (i + 1) (if 4 < b.failed then i + 1 else current) (c :: rest)
    ({ b with failed := (b.failed + 1) % 2 ^ 32 } :: r.1, r.2)

/-- `pool_->d.end - (u_char *)pool_`. -/
def blockSize (s : Pool) : ℕ :=
  match s.blocks with
  | [] => 0
  | b :: _ => size64 (b.endPtr + 2 ^ 64 - b.base)

def newBlock (m psize size : ℕ) (align : Bool) (owner : Owner) : Block :=
  { base := m, endPtr := m + psize, failed := 0, last := alignPtr (m + DATA) + size
    given := [⟨alignPtr (m + DATA), size, align, owner⟩] }

def pallocBlock (s : Pool) (size : ℕ) (align : Bool) (owner : Owner) : Option (Pool × Option ℕ) :=
  match s.malloc s.blockSize with
  | none => none
  | some (s, none) => some (s, none)
  | some (s', some m) =>
    let r := countFailed s.current s.current (s.blocks.drop s.current)
    some ({ s' with
      blocks := s.blocks.take s.current ++ r.1 ++ [newBlock m s.blockSize size align owner]
      current := r.2 }, some (alignPtr (m + DATA)))

def pallocSmall (s : Pool) (size : ℕ) (align : Bool) (owner : Owner) : Option (Pool × Option ℕ) :=
  match tryBlocks size align owner (s.blocks.drop s.current) with
  | some (bs, m) => some ({ s with blocks := s.blocks.take s.current ++ bs }, some m)
  | none => s.pallocBlock size align owner

/-! ## Large requests -/

/-- The search for a node without a block, in at most `n` nodes. -/
def findFree (word : ℕ → ℕ) : ℕ → ℕ → Option ℕ
  | 0, _ => none
  | n + 1, l => if l = 0 then none else if word (l + 8) = 0 then some l else findFree word n (word l)

def pallocLarge (s : Pool) (size : ℕ) (owner : Owner) : Option (Pool × Option ℕ) :=
  match s.malloc size with
  | none => none
  | some (s, none) => some (s, none)
  | some (s, some p) =>
    match findFree s.word 5 s.large with
    | some l => some ({ s.store (l + 8) p with chunks := ⟨p, size, true, owner⟩ :: s.chunks }, some p)
    | none =>
      match s.pallocSmall LARGE true .largeNode with
      | none => none
      | some (s, none) => some (s.free p, none)
      | some (s, some l) =>
        some ({ (s.store (l + 8) p).store l s.large with
          large := l
          nlarge := s.nlarge + 1
          chunks := ⟨p, size, true, owner⟩ :: s.chunks }, some p)

/-! ## The interface -/

def pallocFor (s : Pool) (size : ℕ) (align : Bool) (owner : Owner) : Option (Pool × Option ℕ) :=
  if size ≤ s.max then s.pallocSmall size align owner else s.pallocLarge size owner

def palloc (s : Pool) (size : ℕ) : Option (Pool × Option ℕ) := s.pallocFor size true .user

def pnalloc (s : Pool) (size : ℕ) : Option (Pool × Option ℕ) := s.pallocFor size false .user

def pcalloc (s : Pool) (size : ℕ) : Option (Pool × Option ℕ) :=
  match s.palloc size with
  | none => none
  | some (s, none) => some (s, none)
  | some (s, some p) => some (s.memzero p size, some p)

/-- The node in the list with this block, in at most `n` nodes: `nlarge` is the length of
the list in every run (`Large.length`). -/
def findAlloc (word : ℕ → ℕ) (p : ℕ) : ℕ → ℕ → Option ℕ
  | 0, _ => none
  | n + 1, l => if l = 0 then none else if word (l + 8) = p then some l else findAlloc word p n (word l)

def pfree (s : Pool) (p : ℕ) : Pool :=
  match findAlloc s.word p s.nlarge s.large with
  | none => s
  | some l => { (s.free p).store (l + 8) 0 with chunks := s.chunks.eraseP fun g => g.start = p }

/-- The rest of `ngx_pool_cleanup_add`, once there is a node and its data. -/
def listCleanup (s : Pool) (c data : ℕ) : Pool :=
  { ((s.store (c + 8) data).store c 0).store (c + 16) s.cleanup with
    cleanup := c
    added := ⟨c, 0, data⟩ :: s.added }

def poolCleanupAdd (s : Pool) (size : ℕ) : Option (Pool × Option ℕ) :=
  match s.pallocFor CLEANUP true .cleanupNode with
  | none => none
  | some (s, none) => some (s, none)
  | some (s, some c) =>
    if size ≠ 0 then
      match s.palloc size with
      | none => none
      | some (s, none) => some (s.store (c + 8) 0, none)
      | some (s, some data) => some (s.listCleanup c data, some c)
    else some (s.listCleanup c 0, some c)

/-- The blocks recorded in the large list, in at most `n` nodes. -/
def allocs (word : ℕ → ℕ) : ℕ → ℕ → List ℕ
  | 0, _ => []
  | n + 1, l => if l = 0 then [] else word (l + 8) :: allocs word n (word l)

/-- The loop that frees them. -/
def freeLarge (s : Pool) : Pool := (allocs s.word s.nlarge s.large).foldl free s

def resetBlock (header : ℕ) (b : Block) : Block := { b with last := b.base + header, failed := 0, given := [] }

def resetPool (s : Pool) : Pool :=
  { s.freeLarge with
    blocks := match s.blocks with
      | [] => []
      | b :: rest => resetBlock POOL b :: rest.map (resetBlock DATA)
    current := 0
    large := 0
    chunks := []
    nlarge := 0 }

/-- What the cleanup loop runs, handler and data, if it ends after at most so many
nodes: nothing but the words in memory bounds it. -/
def cleanups (word : ℕ → ℕ) : ℕ → ℕ → Option (List (ℕ × ℕ))
  | 0, c => if c = 0 then some [] else none
  | n + 1, c =>
    if c = 0 then some []
    else (cleanups word n (word (c + 16))).map fun ran =>
      (if word c ≠ 0 then [(word c, word (c + 8))] else []) ++ ran

/-- `none` if the cleanup loop has not ended after so many nodes. -/
def destroyPool (s : Pool) (steps : ℕ) : Option Pool :=
  (cleanups s.word steps s.cleanup).map fun ran =>
    (s.blocks.map Block.base).foldl free ({ s with ran : Pool }.freeLarge)

/-- `p->max`. -/
def maxFor (size : ℕ) : ℕ := if size64 (size + 2 ^ 64 - POOL) < MAX then size64 (size + 2 ^ 64 - POOL) else MAX

/-- `ngx_create_pool`, with the address malloc gave; what memory holds is not
known. -/
def createPool (size base : ℕ) (word : ℕ → ℕ) : Option Pool :=
  if Fresh [] ⟨base, size⟩ then
    some { blocks := [{ base, last := base + POOL, endPtr := base + size, failed := 0, given := [] }]
           current := 0
           max := maxFor size
           large := 0, cleanup := 0, word, answers := [], heap := [⟨base, size⟩], chunks := [], nlarge := 0
           added := [], ran := [], badFree := false }
  else none

/-! ## Runs -/

/-- In no block an aligned pointer passes the end. -/
def Even (s : Pool) : Prop := ∀ b ∈ s.blocks, alignPtr b.last ≤ b.endPtr

instance (s : Pool) : Decidable s.Even := inferInstanceAs (Decidable (∀ b ∈ s.blocks, _))

/-- What is handed out. -/
def live (s : Pool) : List Piece := s.blocks.flatMap Block.given ++ s.chunks

/-- A member of the newest node at the address is set. -/
def setNode (c : ℕ) (f : Node → Node) : List Node → List Node
  | [] => []
  | n :: l => if n.addr = c then f n :: l else n :: setNode c f l

/-- The user has the node, and its memory has not been taken back. -/
def Holds (s : Pool) (c : ℕ) : Prop :=
  c ∈ s.added.map Node.addr ∧ ⟨c, CLEANUP, true, .cleanupNode⟩ ∈ s.live

instance (s : Pool) (c : ℕ) : Decidable (s.Holds c) := inferInstanceAs (Decidable (_ ∧ _))

end Pool

/-- The operations, and what the user does with what it was given: it writes a
byte of a block, or the members of a cleanup node that are its own to set. -/
inductive Op
  | palloc (size : ℕ) (answers : List (Option ℕ))
  | pnalloc (size : ℕ) (answers : List (Option ℕ))
  | pcalloc (size : ℕ) (answers : List (Option ℕ))
  | cleanupAdd (size : ℕ) (answers : List (Option ℕ))
  | pfree (p : ℕ)
  | reset
  | write (x v : ℕ)
  | setHandler (c handler : ℕ)
  | setData (c data : ℕ)

/-- The word with one byte of it set. -/
def setByte (w i v : ℕ) : ℕ := w - w / 256 ^ i % 256 * 256 ^ i + v % 256 * 256 ^ i

namespace Pool

/-- The byte at `x` is set. -/
def writeByte (s : Pool) (x v : ℕ) : Pool :=
  s.store (x - x % 8) (setByte (s.word (x - x % 8)) (x % 8) v)

/-- Some block that a user has has the byte at `x`. -/
def Writable (s : Pool) (x : ℕ) : Prop :=
  ∃ g ∈ s.live, g.owner = .user ∧ g.start ≤ x ∧ x < g.start + g.size

instance (s : Pool) (x : ℕ) : Decidable (s.Writable x) := inferInstanceAs (Decidable (∃ g ∈ s.live, _))

def step (s : Pool) : Op → Option Pool
  | .palloc size answers => ({ s with answers : Pool }.palloc size).map Prod.fst
  | .pnalloc size answers => ({ s with answers : Pool }.pnalloc size).map Prod.fst
  | .pcalloc size answers => ({ s with answers : Pool }.pcalloc size).map Prod.fst
  | .cleanupAdd size answers => ({ s with answers : Pool }.poolCleanupAdd size).map Prod.fst
  | .pfree p => some (s.pfree p)
  | .reset => some s.resetPool
  | .write x v => if s.Writable x then some (s.writeByte x v) else none
  | .setHandler c handler =>
    if s.Holds c then
      some { s.store c handler with added := setNode c (fun n => { n with handler }) s.added }
    else none
  | .setData c data =>
    if s.Holds c then
      some { s.store (c + 8) data with added := setNode c (fun n => { n with data }) s.added }
    else none

end Pool

end Learncc.Ngx
