import HpcToolkit.Lib.Allocator
import HpcToolkit.Lib.Splay
import HpcToolkit.Lib.Reachable

/-! # The allocation functions that memleak puts before those of the system

A tracked allocation asks the system for 48 bytes more than the application wants and keeps a `leakinfo_t` in them,
before the application's bytes (a header) or behind them (a footer). A header is used when it lies on the page of the
application's pointer, so that `free` may look there without a fault; blocks with a footer are found again in a splay
tree keyed by the application's pointer. A call that is not tracked gets a block of the system as it is. `realloc`
forgets what is known of the block, resizes it and starts over, sliding the bytes of the application when a header
appears or disappears.

Whether a call is tracked, and which node of the calling context tree its `leakinfo_t` names, is decided by the
environment: the memleak metric, the code under `dlopen`, the random number. `memleak_initialize` sets
`leak_detection_enabled` before the first test of it, and the functions that find themselves inside of hpcrun allocate
as untracked calls do. A result of `none` is a call that has no meaning: the system allocator is given a pointer that is
not live, a store misses the live blocks, or hpcrun ends itself.
-/

namespace HpcToolkit.Memleak

open Lib

/-- `MEMLEAK_LOC_HEAD`, `MEMLEAK_LOC_FOOT` and `MEMLEAK_LOC_NONE`. -/
inductive Loc where
  | head
  | foot
  | none
deriving DecidableEq

/-- `memleak_pagesize`, and whether `MEMLEAK_NO_HEADER` is enabled. -/
structure Config where
  pagesize : ℕ
  noHeader : Bool

/-- A node of the splay tree: its key, and the address of its `leakinfo_t`. -/
structure LeakNode where
  memblock : ℕ
  info : ℕ

/-- The system's blocks and `memleak_tree_root`. -/
structure Tracker where
  heap : Arena
  tree : STree LeakNode

/-- What the environment answers during one call. -/
structure Env where
  active : Bool
  context : ℕ
  reply : Reply

def leakinfoSize : ℕ := 48

def memleakMagic : ℕ := 0x68706374

/-- The fields of a `leakinfo_t` in memory; the links are the shape of the tree. -/
def leakinfo (context bytes memblock : ℕ) : List UInt8 :=
  toLE 8 memleakMagic ++ toLE 8 context ++ toLE 8 bytes ++ toLE 8 memblock ++ toLE 8 0 ++ toLE 8 0

@[simp] lemma length_leakinfo (context bytes memblock : ℕ) : (leakinfo context bytes memblock).length = 48 := by
  simp [leakinfo]

def magic (m : Mem) (info : ℕ) : ℕ := m.word 8 info

def memblock (m : Mem) (info : ℕ) : ℕ := m.word 8 (info + 24)

/-! ## The splay tree -/

def splayInsert (node : LeakNode) (tree : STree LeakNode) : Option (STree LeakNode) :=
  match tree.splay LeakNode.memblock node.memblock with
  | .nil => some (.node .nil node .nil)
  | .node l root r =>
    if root.memblock = node.memblock then none
    else some (STree.insertRoot LeakNode.memblock node (.node l root r))

def splayDelete (memblock : ℕ) (tree : STree LeakNode) : Option LeakNode × STree LeakNode :=
  match tree.splay LeakNode.memblock memblock with
  | .nil => (none, .nil)
  | .node l root r =>
    if root.memblock = memblock then
      (some root, STree.removeRoot LeakNode.memblock memblock (.node l root r))
    else (none, .node l root r)

/-! ## Where the leakinfo stands -/

def memleakSamePage (cfg : Config) (p q : ℕ) : Prop := p / cfg.pagesize = q / cfg.pagesize

instance (cfg : Config) (p q : ℕ) : Decidable (memleakSamePage cfg p q) := inferInstanceAs (Decidable (_ = _))

/-- The location, the application's pointer and the leakinfo pointer for a new block. -/
def memleakGetMallocLoc (cfg : Config) (sys bytes align : ℕ) : Loc × ℕ × ℕ :=
  if cfg.noHeader = false ∧ align = 0 ∧ memleakSamePage cfg sys (sys + leakinfoSize) then
    (.head, sys + leakinfoSize, sys)
  else (.foot, sys, sys + bytes)

/-- What `free` takes for the header of a block. -/
def LooksLikeHeader (cfg : Config) (m : Mem) (appl : ℕ) : Prop :=
  leakinfoSize ≤ appl ∧ memleakSamePage cfg (appl - leakinfoSize) appl ∧
    magic m (appl - leakinfoSize) = memleakMagic ∧ memblock m (appl - leakinfoSize) = appl

instance (cfg : Config) (m : Mem) (appl : ℕ) : Decidable (LooksLikeHeader cfg m appl) :=
  inferInstanceAs (Decidable (_ ∧ _ ∧ _ ∧ _))

/-- The location, the system's pointer, the leakinfo pointer (or none) and the tree that is left. -/
def memleakGetFreeLoc (cfg : Config) (t : Tracker) (appl : ℕ) : Loc × ℕ × Option ℕ × STree LeakNode :=
  if LooksLikeHeader cfg t.heap.mem appl then
    (.head, appl - leakinfoSize, some (appl - leakinfoSize), t.tree)
  else
    match splayDelete appl t.tree with
    | (none, tree) => (.none, appl, none, tree)
    | (some node, tree) =>
      if magic t.heap.mem node.info = memleakMagic ∧ memblock t.heap.mem node.info = appl then
        (.foot, appl, some node.info, tree)
      else (.none, appl, none, tree)

/-- Fill in the leakinfo and, for a footer, enter it in the tree. -/
def memleakAddLeakinfo (t : Tracker) (appl info bytes : ℕ) (context : ℕ) (loc : Loc) : Option Tracker :=
  if info = 0 then some t
  else do
    let heap ← t.heap.write info (leakinfo context bytes appl)
    if loc = .foot then
      let tree ← splayInsert ⟨appl, info⟩ t.tree
      some ⟨heap, tree⟩
    else some ⟨heap, t.tree⟩

/-- Invalidate the leakinfo of a block. -/
def memleakFreeHelper (h : Arena) : Option ℕ → Option Arena
  | none => some h
  | some info => h.write info (toLE 8 0)

/-! ## The intercepted functions -/

/-- The size of the system's block, a `size_t`. -/
def systemSize (active : Bool) (bytes : ℕ) : ℕ :=
  (bytes + if active then leakinfoSize else 0) % 2 ^ 64

/-- `memset` for `calloc`. -/
def clearBlock (clear : Bool) (h : Arena) (sys size : ℕ) : Option Arena :=
  if clear ∧ sys ≠ 0 then h.write sys (List.replicate size 0) else some h

/-- The pointer for the application, the location that was chosen, and the state behind it. -/
def memleakMallocHelper (cfg : Config) (t : Tracker) (bytes align : ℕ) (clear : Bool) (env : Env) :
    Option (ℕ × Loc × Tracker) := do
  let size := systemSize env.active bytes
  let (sys, heap) := t.heap.malloc size env.reply
  let heap ← clearBlock clear heap sys size
  let t := { t with heap }
  if env.active = false ∨ sys = 0 then some (sys, .none, t)
  else
    let (loc, appl, info) := memleakGetMallocLoc cfg sys bytes align
    let t ← memleakAddLeakinfo t appl info bytes env.context loc
    some (appl, loc, t)

def hpcrunFree (cfg : Config) (t : Tracker) (ptr : ℕ) (reply : Reply) : Option Tracker :=
  if ptr = 0 then some t
  else
    let (_, sys, info, tree) := memleakGetFreeLoc cfg t ptr
    do
      let heap ← memleakFreeHelper t.heap info
      let heap ← heap.free sys reply
      some ⟨heap, tree⟩

/-- `memmove` into a live block. -/
def memmove (h : Arena) (dst src n : ℕ) : Option Arena := h.write dst (h.mem.bytes src n)

/-- Slide the bytes down over a header that goes away while the block still has its old size. -/
def slideUntracked (h : Arena) (loc : Loc) (sys ptr bytes : ℕ) : Option Arena :=
  if loc = .head then memmove h sys ptr bytes else some h

/-- Slide the bytes of a resized block when a header goes away or appears. -/
def slideTracked (h : Arena) (loc loc' : Loc) (sys' ptr bytes : ℕ) : Option Arena :=
  if loc = .head ∧ loc' ≠ .head then memmove h sys' (sys' + leakinfoSize) bytes
  else if loc ≠ .head ∧ loc' = .head then memmove h (sys' + leakinfoSize) ptr bytes
  else some h

/-- The part of `hpcrun_realloc` behind the release of the old leakinfo, for a size that is not 0. -/
def resize (cfg : Config) (t : Tracker) (loc : Loc) (ptr sys bytes : ℕ) (env : Env) : Option (ℕ × Loc × Tracker) :=
  if env.active = false then do
    let heap ← slideUntracked t.heap loc sys ptr bytes
    let (appl, heap) ← heap.realloc sys bytes env.reply
    some (appl, .none, { t with heap })
  else do
    let (sys', heap) ← t.heap.realloc sys (systemSize true bytes) env.reply
    let (loc', appl, info) := memleakGetMallocLoc cfg sys' bytes 0
    let heap ← slideTracked heap loc loc' sys' ptr bytes
    let t ← memleakAddLeakinfo ⟨heap, t.tree⟩ appl info bytes env.context loc'
    some (appl, loc', t)

def hpcrunRealloc (cfg : Config) (t : Tracker) (ptr bytes : ℕ) (env : Env) : Option (ℕ × Loc × Tracker) :=
  if ptr = 0 then memleakMallocHelper cfg t bytes 0 false env
  else
    let (loc, sys, info, tree) := memleakGetFreeLoc cfg t ptr
    do
      let heap ← memleakFreeHelper t.heap info
      if bytes = 0 then
        let heap ← heap.free sys env.reply
        some (0, .none, ⟨heap, tree⟩)
      else resize cfg ⟨heap, tree⟩ loc ptr sys bytes env

end HpcToolkit.Memleak

/-! # An application over the intercepted functions

The application holds blocks: the pointer it was given, the size it asked for and the bytes it may expect there. This is
all it knows; where memleak keeps the leakinfo of a block is recorded beside it, to compare with the tree. A step is one
call or one store of the application, and `Transparent` is what the application and the system allocator may rely on
between the steps.
-/

namespace HpcToolkit.Memleak

open Lib

structure Block where
  ptr : ℕ
  size : ℕ
  contents : ℕ → UInt8
  loc : Loc

/-- The pointer of the system's block that the application's block lies in. -/
def Block.sys (b : Block) : ℕ := if b.loc = .head then b.ptr - leakinfoSize else b.ptr

/-- Two blocks of the application are neither at one pointer nor in one block of the system. -/
def Block.Distinct (b c : Block) : Prop := b.ptr ≠ c.ptr ∧ b.sys ≠ c.sys

instance : Std.Symm Block.Distinct := ⟨fun _ _ => And.imp Ne.symm Ne.symm⟩

/-- The blocks beside the one at `p`. -/
def besides (blocks : List Block) (p : ℕ) : List Block := blocks.filter fun b => b.ptr ≠ p

structure State where
  tracker : Tracker
  blocks : List Block

/-- Every thread starts with nothing allocated, in whatever memory. -/
def initial (mem : Mem) : State := ⟨⟨⟨[], mem⟩, .nil⟩, []⟩

inductive Act where
  | malloc (bytes : ℕ) (env : Env)
  | calloc (nmemb bytes : ℕ) (env : Env)
  | memalign (boundary bytes : ℕ) (env : Env)
  | realloc (ptr bytes : ℕ) (env : Env)
  | free (ptr : ℕ) (reply : Reply)
  | store (ptr offset : ℕ) (byte : UInt8)

namespace State

def block? (s : State) (ptr : ℕ) : Option Block := s.blocks.find? fun b => b.ptr = ptr

/-- The application takes what an allocating call returns; a null pointer is no block. -/
def take (blocks : List Block) (size : ℕ) (contents : Mem → ℕ → ℕ → UInt8) : ℕ × Loc × Tracker → State
  | (appl, loc, t) => ⟨t, if appl = 0 then blocks else ⟨appl, size, contents t.heap.mem appl, loc⟩ :: blocks⟩

/-- What the application finds in a block that `realloc` returned: the old bytes as far as they go. -/
def resized (b : Block) (bytes : ℕ) (m : Mem) (appl : ℕ) : ℕ → UInt8 :=
  fun i => if i < min b.size bytes then b.contents i else m (appl + i)

end State

/-- One call of the application, or one store into a block it holds. -/
def step (cfg : Config) (s : State) : Act → Option State
  | .malloc bytes env =>
    (memleakMallocHelper cfg s.tracker bytes 0 false env).map (State.take s.blocks bytes fun m p i => m (p + i))
  | .calloc nmemb bytes env =>
    (memleakMallocHelper cfg s.tracker (nmemb * bytes % 2 ^ 64) 0 true env).map
      (State.take s.blocks (nmemb * bytes) fun _ _ _ => 0)
  | .memalign boundary bytes env =>
    (memleakMallocHelper cfg s.tracker bytes boundary false env).map
      (State.take s.blocks bytes fun m p i => m (p + i))
  | .realloc ptr bytes env =>
    if ptr = 0 then
      (hpcrunRealloc cfg s.tracker ptr bytes env).map (State.take s.blocks bytes fun m p i => m (p + i))
    else do
      let b ← s.block? ptr
      let result ← hpcrunRealloc cfg s.tracker ptr bytes env
      if bytes = 0 then some ⟨result.2.2, besides s.blocks ptr⟩
      else if result.1 = 0 then some ⟨result.2.2, { b with loc := .none } :: besides s.blocks ptr⟩
      else some (State.take (besides s.blocks ptr) bytes (State.resized b bytes) result)
  | .free ptr reply =>
    (hpcrunFree cfg s.tracker ptr reply).map fun t => ⟨t, besides s.blocks ptr⟩
  | .store ptr offset byte => do
    let b ← s.block? ptr
    let heap ← s.tracker.heap.write (ptr + offset) [byte]
    some ⟨{ s.tracker with heap }, { b with contents := Function.update b.contents offset byte } :: besides s.blocks ptr⟩

/-! ## What the application and the allocator promise -/

/-- The replies are those of an allocator, and the application passes sizes that are a `size_t` and pointers that are
null or its own, and stores into its own blocks. -/
def Allowed (s : State) : Act → Prop
  | .malloc bytes env | .memalign _ bytes env =>
    bytes < 2 ^ 64 ∧ Arena.Fits s.tracker.heap.live env.reply.ptr (systemSize env.active bytes)
  | .calloc nmemb bytes env =>
    Arena.Fits s.tracker.heap.live env.reply.ptr (systemSize env.active (nmemb * bytes % 2 ^ 64))
  | .realloc ptr bytes env =>
    bytes < 2 ^ 64 ∧
    if ptr = 0 then Arena.Fits s.tracker.heap.live env.reply.ptr (systemSize env.active bytes)
    else ∃ b ∈ s.blocks, b.ptr = ptr ∧ (bytes ≠ 0 →
      Arena.Fits (s.tracker.heap.others b.sys) env.reply.ptr (systemSize env.active bytes))
  | .free ptr _ => ptr = 0 ∨ ∃ b ∈ s.blocks, b.ptr = ptr
  | .store ptr offset _ => ∃ b ∈ s.blocks, b.ptr = ptr ∧ offset < b.size

instance (s : State) : (act : Act) → Decidable (Allowed s act)
  | .malloc _ env => inferInstanceAs (Decidable (_ ∧ Arena.Fits _ env.reply.ptr _))
  | .memalign _ _ env => inferInstanceAs (Decidable (_ ∧ Arena.Fits _ env.reply.ptr _))
  | .calloc _ _ env => inferInstanceAs (Decidable (Arena.Fits _ env.reply.ptr _))
  | .realloc ptr bytes env => inferInstanceAs (Decidable (bytes < 2 ^ 64 ∧
    if ptr = 0 then Arena.Fits s.tracker.heap.live env.reply.ptr (systemSize env.active bytes)
    else ∃ b ∈ s.blocks, b.ptr = ptr ∧ (bytes ≠ 0 →
      Arena.Fits (s.tracker.heap.others b.sys) env.reply.ptr (systemSize env.active bytes))))
  | .free ptr _ => inferInstanceAs (Decidable (ptr = 0 ∨ ∃ b ∈ s.blocks, b.ptr = ptr))
  | .store ptr offset _ => inferInstanceAs (Decidable (∃ b ∈ s.blocks, b.ptr = ptr ∧ offset < b.size))

/-- What holds between two steps: the blocks of the application are its own, each lies in a block of the system that is
live and no other block's, holds the bytes that the application expects, and the tree holds exactly those that carry
a footer. -/
structure Transparent (s : State) : Prop where
  distinct : s.blocks.Pairwise Block.Distinct
  live : ∀ b ∈ s.blocks, ∃ r ∈ s.tracker.heap.live, r.base = b.sys ∧ r.Holds b.ptr b.size
  contents : ∀ b ∈ s.blocks, ∀ i < b.size, s.tracker.heap.mem (b.ptr + i) = b.contents i
  footers : (s.tracker.tree.toList.map LeakNode.memblock).Perm
    ((s.blocks.filter fun b => b.loc = .foot).map Block.ptr)

/-! ## When the calls do what they promise -/

/-- An allocation: it fails, or the size with the leakinfo is a `size_t` and the pointer that comes out is not one that
the application holds already, which only the end of an empty block with a header can be. -/
def MeetsAlloc (cfg : Config) (blocks : List Block) (bytes align : ℕ) (env : Env) : Prop :=
  env.reply.ptr ≠ 0 →
    bytes + (if env.active then leakinfoSize else 0) < 2 ^ 64 ∧
    ∀ b ∈ blocks, b.ptr ≠
      if env.active then (memleakGetMallocLoc cfg env.reply.ptr bytes align).2.1 else env.reply.ptr

/-- A block without a header is given back: the bytes before it are not the header of a block at its pointer. -/
def MeetsRelease (cfg : Config) (m : Mem) (b : Block) : Prop := b.loc ≠ .head → ¬ LooksLikeHeader cfg m b.ptr

/-- A block is resized. Untracked, the bytes behind a header are moved down for the new size, which must then be the size
of the system's block at most, and must not be needed again because the request fails. Tracked, the request must not
fail, and a header may appear only if the bytes are still where they were. -/
def MeetsResize (cfg : Config) (b : Block) (bytes : ℕ) (env : Env) : Prop :=
  if env.active then
    env.reply.ptr ≠ 0 ∧
    (b.loc = .head ∨ (memleakGetMallocLoc cfg env.reply.ptr bytes 0).1 ≠ .head ∨ env.reply.ptr = b.ptr ∨ b.size = 0)
  else b.loc = .head → bytes ≤ b.size + leakinfoSize ∧ env.reply.ptr ≠ 0

def Meets (cfg : Config) (s : State) : Act → Prop
  | .malloc bytes env => MeetsAlloc cfg s.blocks bytes 0 env
  | .memalign boundary bytes env => MeetsAlloc cfg s.blocks bytes boundary env
  | .calloc nmemb bytes env => MeetsAlloc cfg s.blocks (nmemb * bytes) 0 env
  | .realloc ptr bytes env =>
    if ptr = 0 then MeetsAlloc cfg s.blocks bytes 0 env
    else ∀ b ∈ s.blocks, b.ptr = ptr → MeetsRelease cfg s.tracker.heap.mem b ∧
      (bytes ≠ 0 → MeetsAlloc cfg (besides s.blocks ptr) bytes 0 env ∧ MeetsResize cfg b bytes env)
  | .free ptr _ => ∀ b ∈ s.blocks, b.ptr = ptr → MeetsRelease cfg s.tracker.heap.mem b
  | .store .. => True

section
variable (cfg : Config) (s : State)

instance (blocks : List Block) (bytes align : ℕ) (env : Env) : Decidable (MeetsAlloc cfg blocks bytes align env) :=
  inferInstanceAs (Decidable (_ → _))

instance (m : Mem) (b : Block) : Decidable (MeetsRelease cfg m b) := inferInstanceAs (Decidable (_ → _))

instance (b : Block) (bytes : ℕ) (env : Env) : Decidable (MeetsResize cfg b bytes env) :=
  inferInstanceAs (Decidable (if env.active then _ ∧ (_ ∨ _ ∨ _ ∨ _) else _ → _ ∧ _))

instance : (act : Act) → Decidable (Meets cfg s act)
  | .malloc _ env => inferInstanceAs (Decidable (MeetsAlloc cfg _ _ _ env))
  | .memalign _ _ env => inferInstanceAs (Decidable (MeetsAlloc cfg _ _ _ env))
  | .calloc _ _ env => inferInstanceAs (Decidable (MeetsAlloc cfg _ _ _ env))
  | .realloc ptr bytes env => inferInstanceAs (Decidable (
    if ptr = 0 then MeetsAlloc cfg s.blocks bytes 0 env
    else ∀ b ∈ s.blocks, b.ptr = ptr → MeetsRelease cfg s.tracker.heap.mem b ∧
      (bytes ≠ 0 → MeetsAlloc cfg (besides s.blocks ptr) bytes 0 env ∧ MeetsResize cfg b bytes env)))
  | .free ptr _ => inferInstanceAs (Decidable (∀ b ∈ s.blocks, b.ptr = ptr → MeetsRelease cfg s.tracker.heap.mem b))
  | .store .. => .isTrue trivial

end

end HpcToolkit.Memleak
