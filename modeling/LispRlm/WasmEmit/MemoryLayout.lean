import LispRlm.Foundation.Ranges
import Mathlib.Data.List.Induction
import Mathlib.Algebra.Group.Nat.Defs

/-! The addresses of linear memory that emission hands out, and those that are written down in the
emitter. -/

namespace LispRlm.WasmEmit.Layout

open Foundation

/-! ### The allocators -/

/-- The emitter's offsets and data segments. -/
structure Emitter where
  nextDataOffset : Nat
  heapPtr : Nat
  dataSegments : List (Nat × List UInt8)

def fresh : Emitter := ⟨139264, 0, []⟩

def align8 (x : Nat) : Nat := (x + 7) / 8 * 8

namespace Emitter

/-- The heap starts above the data so far, with 64 KiB for the frame pointer's region below it. -/
def ensureHeapInit (em : Emitter) : Emitter :=
  if em.heapPtr = 0 then
    { em with heapPtr := max (align8 em.nextDataOffset) 262144 + 65536 }
  else em

def heapPtrI32 (em : Emitter) : Nat × Emitter :=
  let em := em.ensureHeapInit
  let em := if em.nextDataOffset > em.heapPtr then { em with heapPtr := em.nextDataOffset } else em
  (em.heapPtr, em)

def heapBump (bytes : Nat) (em : Emitter) : Nat × Emitter :=
  let em := em.ensureHeapInit
  let old := max em.heapPtr em.nextDataOffset
  (old, { em with heapPtr := old + bytes, nextDataOffset := old + bytes })

/-- Interned bytes: a segment with the same bytes is used again. -/
def allocData (bytes : List UInt8) (em : Emitter) : Nat × Emitter :=
  match em.dataSegments.find? fun s => s.2 == bytes with
  | some (off, _) => (off, em)
  | none =>
      (em.nextDataOffset, { em with
        dataSegments := em.dataSegments ++ [(em.nextDataOffset, bytes)]
        nextDataOffset := align8 (em.nextDataOffset + bytes.length) })

def zeros8 : List UInt8 := List.replicate 8 0

def allocMemoSlot (em : Emitter) : Nat × Emitter :=
  (em.nextDataOffset, { em with
    dataSegments := em.dataSegments ++ [(em.nextDataOffset, zeros8)]
    nextDataOffset := align8 (em.nextDataOffset + 8) })

/-- A scratch buffer in the data space, without a segment. -/
def scratch (least size : Nat) (em : Emitter) : Nat × Emitter :=
  let base := max em.nextDataOffset least
  (base, { em with nextDataOffset := align8 (base + size) })

/-- A segment of its own for the arguments that are known when the call is compiled. -/
def bake (bytes : List UInt8) (em : Emitter) : Nat × Emitter :=
  let base := em.nextDataOffset
  if bytes.isEmpty then (base, em)
  else
    (base, { em with
      dataSegments := em.dataSegments ++ [(base, bytes)]
      nextDataOffset := max em.nextDataOffset (align8 (base + bytes.length)) })

end Emitter

/-! ### Regions -/

/-- The fixed buffers. -/
inductive Buffer
  | depthCounter
  | handleCount
  | runtimeHeapPtr
  | tempMem
  | amountMem
  | signerBuf
  | storageBuf
  | storageU128Buf
  | keyBuf
  | u128Cells
  | u256Cells
  | inputBuf
  | returnBuf
  | borshBuf
  | inputCacheBuf
  | handleTable
  | jsonScanBuf
  | stdoutBuf
  | payloadBuf
  | storageCache
  | dirtyBitmap
  deriving DecidableEq

def Buffer.range : Buffer → Range
  | depthCounter => ⟨40, 8⟩
  | handleCount => ⟨48, 8⟩
  | runtimeHeapPtr => ⟨56, 8⟩
  | tempMem => ⟨64, 8⟩
  | amountMem => ⟨256, 16⟩
  | signerBuf => ⟨4096, 64⟩
  | storageBuf => ⟨8192, 8⟩
  | storageU128Buf => ⟨8208, 16⟩
  | keyBuf => ⟨8224, 256⟩
  | u128Cells => ⟨8480, 112⟩
  | u256Cells => ⟨8608, 96⟩
  | inputBuf => ⟨16384, 16384⟩
  | returnBuf => ⟨32768, 4096⟩
  | borshBuf => ⟨36864, 4096⟩
  | inputCacheBuf => ⟨40960, 16384⟩
  | handleTable => ⟨49152, 16384⟩
  | jsonScanBuf => ⟨57344, 16384⟩
  | stdoutBuf => ⟨65536, 8⟩
  | payloadBuf => ⟨81920, 65536⟩
  | storageCache => ⟨131072, 5648⟩
  | dirtyBitmap => ⟨136720, 64⟩

inductive Kind
  | literal
  | memoSlot
  | scratch
  | cell
  | buffer (b : Buffer)
  | frame
  | heap
  deriving DecidableEq

structure Region where
  kind : Kind
  range : Range
  deriving DecidableEq

/-- What an emission asks the allocators for. -/
inductive Event
  | literal (bytes : List UInt8)
  | bake (bytes : List UInt8)
  | memoSlot
  | strScratch
  | itoaScratch
  | cell (captured : Nat)
  | heapPtr
  deriving DecidableEq

/-- The regions that are handed out, and the emitter afterwards. -/
def Event.apply (em : Emitter) : Event → List Region × Emitter
  | literal bytes =>
      let (off, em) := em.allocData bytes
      ([⟨.literal, off, bytes.length⟩], em)
  | bake bytes =>
      let (off, em) := em.bake bytes
      ([⟨.literal, off, bytes.length⟩], em)
  | memoSlot =>
      let (off, em) := em.allocMemoSlot
      ([⟨.memoSlot, off, 8⟩], em)
  | strScratch =>
      let (off, em) := em.scratch 3072 128
      ([⟨.scratch, off, 128⟩], em)
  | itoaScratch =>
      let (off, em) := em.scratch 3200 32
      ([⟨.scratch, off, 32⟩], em)
  | cell captured =>
      let (off, em) := em.heapBump ((1 + captured) * 8)
      ([⟨.cell, off, (1 + captured) * 8⟩], em)
  | heapPtr => ([], em.heapPtrI32.2)

/-- All regions handed out, in order. -/
def emitted (events : List Event) : List Region × Emitter :=
  events.foldl (fun (regions, em) e =>
    let (more, em) := e.apply em
    (regions ++ more, em)) ([], fresh)

/-- What the layout depends on: the events of the emission, and the fixed buffers that the code
uses. -/
structure Program where
  events : List Event
  uses : Buffer → Bool

def Buffer.all : List Buffer :=
  [depthCounter, handleCount, runtimeHeapPtr, tempMem, amountMem, signerBuf, storageBuf,
    storageU128Buf, keyBuf, u128Cells, u256Cells, inputBuf, returnBuf, borshBuf, inputCacheBuf,
    handleTable, jsonScanBuf, stdoutBuf, payloadBuf, storageCache, dirtyBitmap]

namespace Program

variable (p : Program)

/-- The emitter when all functions are emitted. -/
def atFinish : Emitter := (emitted p.events).2.ensureHeapInit

def buffers : List Region :=
  (Buffer.all.filter p.uses).map fun b => ⟨.buffer b, b.range⟩

/-- `finish`: the layout of the module, or none where it panics. -/
def layout : Option (List Region) :=
  if p.atFinish.nextDataOffset ≥ 1048576 then none
  else
    let hp := p.atFinish.heapPtrI32.1
    some (p.buffers ++ (emitted p.events).1 ++
      [⟨.frame, hp - 65536, 65536⟩, ⟨.heap, hp, 2 ^ 32 - hp⟩])

end Program

/-! ### Disjoint layouts -/

/-- Apart, or the same interned literal. -/
def Separate (a b : Region) : Prop := a.range.Apart b.range ∨ (a = b ∧ a.kind = .literal)

def DisjointRegions (regions : List Region) : Prop := regions.Pairwise Separate

/-- Events that make a segment of eight zero bytes. -/
def Event.makesZeros : Event → Bool
  | .memoSlot => true
  | .literal bytes | .bake bytes => bytes == Emitter.zeros8
  | _ => false

/-- No literal of eight zero bytes is interned when a memo slot was the first such segment. -/
def Unaliased (events : List Event) : Prop :=
  .literal Emitter.zeros8 ∈ events → events.find? Event.makesZeros ≠ some .memoSlot

/-- When emission is done, the data ends at least 64 KiB below the heap pointer. -/
def Roomy (p : Program) : Prop := p.atFinish.nextDataOffset + 65536 ≤ p.atFinish.heapPtr

/-- The fixed buffers in use that overlap others. -/
structure Compatible (p : Program) : Prop where
  handles : p.uses .handleTable = true →
    p.uses .inputCacheBuf = false ∧ p.uses .jsonScanBuf = false
  scan : p.uses .jsonScanBuf = true → p.uses .stdoutBuf = false
  payload : p.uses .payloadBuf = true →
    p.uses .storageCache = false ∧ p.uses .dirtyBitmap = false ∧
      p.atFinish.nextDataOffset = fresh.nextDataOffset

/-! ### Where regions are placed -/

section Placement

theorem align8_le (x : Nat) : x ≤ align8 x := by
  unfold align8
  omega

theorem align8_lt (x : Nat) : align8 x < x + 8 := by
  unfold align8
  omega

theorem align8_aligned (x : Nat) : align8 x % 8 = 0 := by
  unfold align8
  omega

theorem align8_of_aligned {x : Nat} (aligned : x % 8 = 0) : align8 x = x := by
  unfold align8
  omega

/-- The regions handed out lie one behind the other below the next data offset. -/
structure Placed (regions : List Region) (em : Emitter) : Prop where
  grown : fresh.nextDataOffset ≤ em.nextDataOffset
  within : ∀ r ∈ regions,
    fresh.nextDataOffset ≤ r.range.start ∧ r.range.stop ≤ em.nextDataOffset
  alignedData : em.nextDataOffset % 8 = 0
  alignedHeap : em.heapPtr % 8 = 0
  heap : em.heapPtr = 0 ∨ 327680 ≤ em.heapPtr
  last : em.nextDataOffset = fresh.nextDataOffset ∨ ∃ r ∈ regions,
    0 < r.range.size ∧ em.nextDataOffset < r.range.stop + 8
  first : em.nextDataOffset = fresh.nextDataOffset ∨
    (∃ r ∈ regions, 0 < r.range.size ∧ r.range.start = fresh.nextDataOffset) ∨
      0 < em.heapPtr ∧ em.heapPtr ≤ em.nextDataOffset

theorem placed_fresh : Placed [] fresh where
  grown := Nat.le_refl _
  within := fun _ mem => by cases mem
  alignedData := rfl
  alignedHeap := rfl
  heap := .inl rfl
  last := .inl rfl
  first := .inl rfl

variable {regions : List Region} {em : Emitter}

/-- A region at the next data offset. -/
theorem Placed.data (placed : Placed regions em) (kind : Kind) (size : Nat)
    (segments : List (Nat × List UInt8)) :
    Placed (regions ++ [⟨kind, em.nextDataOffset, size⟩])
      ⟨align8 (em.nextDataOffset + size), em.heapPtr, segments⟩ := by
  have above := align8_le (em.nextDataOffset + size)
  have near := align8_lt (em.nextDataOffset + size)
  have still : size = 0 → align8 (em.nextDataOffset + size) = em.nextDataOffset := by
    rintro rfl
    exact align8_of_aligned placed.alignedData
  have grown := placed.grown
  constructor
  · show fresh.nextDataOffset ≤ align8 (em.nextDataOffset + size)
    omega
  · intro r mem
    show _ ∧ r.range.stop ≤ align8 (em.nextDataOffset + size)
    rcases List.mem_append.mp mem with old | new
    · have := placed.within r old
      omega
    · rw [List.mem_singleton] at new
      subst new
      exact ⟨grown, above⟩
  · exact align8_aligned _
  · exact placed.alignedHeap
  · exact placed.heap
  · show align8 (em.nextDataOffset + size) = _ ∨ ∃ r ∈ _, _ ∧ align8 (em.nextDataOffset + size) < _
    by_cases empty : size = 0
    · rw [still empty]
      rcases placed.last with same | ⟨r, mem, some_, tight⟩
      · exact .inl same
      · exact .inr ⟨r, List.mem_append_left _ mem, some_, tight⟩
    · exact .inr ⟨_, List.mem_append_right _ (List.mem_singleton_self _), Nat.pos_of_ne_zero empty,
        near⟩
  · show align8 (em.nextDataOffset + size) = _ ∨ _ ∨
      _ ∧ em.heapPtr ≤ align8 (em.nextDataOffset + size)
    rcases placed.first with same | ⟨r, mem, some_, start⟩ | ⟨pinned, le⟩
    · by_cases empty : size = 0
      · rw [still empty]
        exact .inl same
      · exact .inr (.inl ⟨_, List.mem_append_right _ (List.mem_singleton_self _),
          Nat.pos_of_ne_zero empty, same⟩)
    · exact .inr (.inl ⟨r, List.mem_append_left _ mem, some_, start⟩)
    · exact .inr (.inr ⟨pinned, by omega⟩)

theorem ensureHeapInit_data (em : Emitter) :
    em.ensureHeapInit.nextDataOffset = em.nextDataOffset := by
  unfold Emitter.ensureHeapInit
  split
  · rfl
  · rfl

theorem ensureHeapInit_segments (em : Emitter) :
    em.ensureHeapInit.dataSegments = em.dataSegments := by
  unfold Emitter.ensureHeapInit
  split
  · rfl
  · rfl

theorem Placed.ensureHeapInit (placed : Placed regions em) :
    Placed regions em.ensureHeapInit ∧ 327680 ≤ em.ensureHeapInit.heapPtr := by
  unfold Emitter.ensureHeapInit
  split
  · rename_i unset
    have aligned := align8_aligned em.nextDataOffset
    refine ⟨⟨placed.grown, placed.within, placed.alignedData, ?_, ?_, placed.last, ?_⟩, ?_⟩
    · show (max (align8 em.nextDataOffset) 262144 + 65536) % 8 = 0
      omega
    · right
      show 327680 ≤ max (align8 em.nextDataOffset) 262144 + 65536
      omega
    · rcases placed.first with same | start | ⟨pinned, _⟩
      · exact .inl same
      · exact .inr (.inl start)
      · omega
    · show 327680 ≤ max (align8 em.nextDataOffset) 262144 + 65536
      omega
  · rename_i set_
    refine ⟨placed, ?_⟩
    rcases placed.heap with unset | far
    · exact (set_ unset).elim
    · exact far

theorem Placed.cell (placed : Placed regions em) (bytes : Nat) (some_ : 0 < bytes)
    (words : bytes % 8 = 0) :
    Placed (regions ++ [⟨.cell, (em.heapBump bytes).1, bytes⟩]) (em.heapBump bytes).2 := by
  obtain ⟨ready, far⟩ := placed.ensureHeapInit
  unfold Emitter.heapBump
  generalize em.ensureHeapInit = em at ready far
  have grown := ready.grown
  have alignedData := ready.alignedData
  have alignedHeap := ready.alignedHeap
  constructor
  · show _ ≤ max em.heapPtr em.nextDataOffset + bytes
    omega
  · intro r mem
    show _ ∧ _ ≤ max em.heapPtr em.nextDataOffset + bytes
    rcases List.mem_append.mp mem with old | new
    · have := ready.within r old
      omega
    · rw [List.mem_singleton] at new
      subst new
      show _ ≤ max em.heapPtr em.nextDataOffset ∧ max em.heapPtr em.nextDataOffset + bytes ≤ _
      omega
  · show (max em.heapPtr em.nextDataOffset + bytes) % 8 = 0
    omega
  · show (max em.heapPtr em.nextDataOffset + bytes) % 8 = 0
    omega
  · right
    show _ ≤ max em.heapPtr em.nextDataOffset + bytes
    omega
  · right
    refine ⟨_, List.mem_append_right _ (List.mem_singleton_self _), some_, ?_⟩
    show max em.heapPtr em.nextDataOffset + bytes < max em.heapPtr em.nextDataOffset + bytes + 8
    omega
  · right
    right
    show 0 < max em.heapPtr em.nextDataOffset + bytes ∧ _
    exact ⟨by omega, Nat.le_refl _⟩

theorem Placed.heapPtrI32 (placed : Placed regions em) : Placed regions em.heapPtrI32.2 := by
  obtain ⟨ready, far⟩ := placed.ensureHeapInit
  unfold Emitter.heapPtrI32
  dsimp only
  split
  · exact ⟨ready.grown, ready.within, ready.alignedData, ready.alignedData, .inr (by
      show 327680 ≤ em.ensureHeapInit.nextDataOffset
      omega), ready.last, .inr (.inr (by
      show 0 < em.ensureHeapInit.nextDataOffset ∧ _
      exact ⟨by omega, Nat.le_refl _⟩))⟩
  · exact ready

end Placement

/-! ### What an event hands out -/

section Events

variable {regions : List Region} {em : Emitter}

/-- An event that makes no segment: at most one region, at the next data offset or above. -/
inductive Handed (em : Emitter) : Event → List Region → Emitter → Prop
  | again {bytes : List UInt8} {s : Nat × List UInt8}
      (found : em.dataSegments.find? (fun s => s.2 == bytes) = some s) :
      Handed em (.literal bytes) [⟨.literal, s.1, bytes.length⟩] em
  | segment {e : Event} {kind : Kind} {bytes : List UInt8}
      (makes : e.makesZeros = (bytes == Emitter.zeros8))
      (kinds : kind = .literal ∧ e ≠ .memoSlot ∨
        kind = .memoSlot ∧ e = .memoSlot ∧ bytes = Emitter.zeros8)
      (unseen : ∀ bytes, e = .literal bytes →
        em.dataSegments.find? (fun s => s.2 == bytes) = none) :
      Handed em e [⟨kind, em.nextDataOffset, bytes.length⟩]
        ⟨align8 (em.nextDataOffset + bytes.length), em.heapPtr,
          em.dataSegments ++ [(em.nextDataOffset, bytes)]⟩
  | space {e : Event} (kind : Kind) (size : Nat) (makes : e.makesZeros = false)
      (noLiteral : e ≠ .literal Emitter.zeros8) :
      Handed em e [⟨kind, em.nextDataOffset, size⟩]
        ⟨align8 (em.nextDataOffset + size), em.heapPtr, em.dataSegments⟩
  | cell (captured : Nat) :
      Handed em (.cell captured)
        [⟨.cell, (em.heapBump ((1 + captured) * 8)).1, (1 + captured) * 8⟩]
        (em.heapBump ((1 + captured) * 8)).2
  | heapPtr : Handed em .heapPtr [] em.heapPtrI32.2

theorem apply_handed (placed : Placed regions em) (e : Event) :
    Handed em e (e.apply em).1 (e.apply em).2 := by
  have grown := placed.grown
  have start : fresh.nextDataOffset = 139264 := rfl
  cases e with
  | literal bytes =>
      cases found : em.dataSegments.find? fun s => s.2 == bytes with
      | none =>
          simp only [Event.apply, Emitter.allocData, found]
          exact .segment rfl (.inl ⟨rfl, by rintro ⟨⟩⟩) (fun bytes' is => by cases is; exact found)
      | some s =>
          simp only [Event.apply, Emitter.allocData, found]
          exact .again found
  | bake bytes =>
      cases bytes with
      | nil =>
          have made : Handed em (.bake []) _ _ := .space .literal 0 rfl (by rintro ⟨⟩)
          rw [Nat.add_zero, align8_of_aligned placed.alignedData] at made
          exact made
      | cons b bytes =>
          have above := align8_le (em.nextDataOffset + (b :: bytes).length)
          have same : max em.nextDataOffset (align8 (em.nextDataOffset + (b :: bytes).length)) =
              align8 (em.nextDataOffset + (b :: bytes).length) := by omega
          simp only [Event.apply, Emitter.bake, List.isEmpty_cons, Bool.false_eq_true, if_false,
            same]
          exact .segment rfl (.inl ⟨rfl, by rintro ⟨⟩⟩) (by rintro _ ⟨⟩)
  | memoSlot => exact .segment rfl (.inr ⟨rfl, rfl, rfl⟩) (by rintro _ ⟨⟩)
  | strScratch =>
      have base : max em.nextDataOffset 3072 = em.nextDataOffset := by omega
      simp only [Event.apply, Emitter.scratch, base]
      exact .space .scratch 128 rfl (by rintro ⟨⟩)
  | itoaScratch =>
      have base : max em.nextDataOffset 3200 = em.nextDataOffset := by omega
      simp only [Event.apply, Emitter.scratch, base]
      exact .space .scratch 32 rfl (by rintro ⟨⟩)
  | cell captured => exact .cell captured
  | heapPtr => exact .heapPtr

end Events

/-! ### Interned bytes -/

section Interning

theorem Separate.symm {a b : Region} (separate : Separate a b) : Separate b a := by
  rcases separate with apart | ⟨rfl, literal⟩
  · exact .inl apart.symm
  · exact .inr ⟨rfl, literal⟩

theorem disjoint_snoc {regions : List Region} {r : Region} (disjoint : DisjointRegions regions)
    (apart : ∀ a ∈ regions, Separate a r) : DisjointRegions (regions ++ [r]) := by
  apply List.pairwise_append.mpr
  refine ⟨disjoint, List.pairwise_singleton _ _, ?_⟩
  intro a memA b memB
  rw [List.mem_singleton] at memB
  subst memB
  exact apart a memA

/-- What is known of segments of eight zero bytes. -/
def ZerosKnown (events : List Event) (regions : List Region) : Option (Nat × List UInt8) → Prop
  | none => events.find? Event.makesZeros = none
  | some s =>
      (⟨.memoSlot, s.1, 8⟩ ∈ regions ∧ events.find? Event.makesZeros = some .memoSlot) ∨
        ⟨.literal, s.1, 8⟩ ∈ regions ∧
          ∃ e, events.find? Event.makesZeros = some e ∧ e ≠ .memoSlot

structure Sound (events : List Event) (regions : List Region) (em : Emitter) : Prop where
  placed : Placed regions em
  segments : ∀ s ∈ em.dataSegments, ⟨.literal, s.1, s.2.length⟩ ∈ regions ∨
    s.2 = Emitter.zeros8 ∧ ⟨.memoSlot, s.1, 8⟩ ∈ regions
  zeros : ZerosKnown events regions (em.dataSegments.find? fun s => s.2 == Emitter.zeros8)
  separate : Unaliased events → DisjointRegions regions
  aliased : ¬ Unaliased events →
    ∃ off, ⟨.memoSlot, off, 8⟩ ∈ regions ∧ ⟨.literal, off, 8⟩ ∈ regions

theorem sound_fresh : Sound [] [] fresh where
  placed := placed_fresh
  segments := fun _ mem => by cases mem
  zeros := rfl
  separate := fun _ => List.Pairwise.nil
  aliased := fun not => (not fun mem => by cases mem).elim

theorem find_snoc (events : List Event) (e : Event) :
    (events ++ [e]).find? Event.makesZeros =
      (events.find? Event.makesZeros).or (if e.makesZeros then some e else none) := by
  rw [List.find?_append]
  congr 1
  cases makes : e.makesZeros with
  | true => rw [List.find?_cons_of_pos makes]; rfl
  | false => rw [List.find?_cons_of_neg (by simp [makes])]; rfl

theorem unaliased_snoc {events : List Event} {e : Event} (other : e ≠ .literal Emitter.zeros8) :
    Unaliased (events ++ [e]) ↔ Unaliased events := by
  unfold Unaliased
  have same : Event.literal Emitter.zeros8 ∈ events ++ [e] ↔ .literal Emitter.zeros8 ∈ events := by
    simp [other.symm]
  rw [same]
  apply forall_congr'
  intro mem
  rw [find_snoc]
  cases found : events.find? Event.makesZeros with
  | none =>
      have := List.find?_eq_none.mp found _ mem
      exact (this rfl).elim
  | some e' => rfl

theorem unaliased_literal (events : List Event) :
    Unaliased (events ++ [.literal Emitter.zeros8]) ↔
      events.find? Event.makesZeros ≠ some .memoSlot := by
  unfold Unaliased
  have mem : Event.literal Emitter.zeros8 ∈ events ++ [.literal Emitter.zeros8] :=
    List.mem_append_right _ (List.mem_singleton_self _)
  rw [find_snoc]
  cases events.find? Event.makesZeros with
  | none => simp [mem, Event.makesZeros]
  | some e => simp [mem]

theorem ZerosKnown.more {events : List Event} {regions : List Region}
    {s : Option (Nat × List UInt8)} (known : ZerosKnown events regions s) (e : Event)
    (silent : e.makesZeros = false ∨ s.isSome) (more : List Region) :
    ZerosKnown (events ++ [e]) (regions ++ more) s := by
  cases s with
  | none =>
      show (events ++ [e]).find? _ = none
      rcases silent with silent | none_
      · rw [find_snoc, silent, show events.find? _ = none from known]
        rfl
      · cases none_
  | some s =>
      rcases known with ⟨mem, found⟩ | ⟨mem, e', found, other⟩
      · left
        rw [find_snoc, found]
        exact ⟨List.mem_append_left _ mem, rfl⟩
      · right
        rw [find_snoc, found]
        exact ⟨List.mem_append_left _ mem, e', rfl, other⟩

variable {events : List Event} {regions : List Region} {em : Emitter}

/-- A region at the next data offset or above. -/
theorem Sound.above {e : Event} {r : Region} (sound : Sound events regions em)
    (high : em.nextDataOffset ≤ r.range.start)
    (same : Unaliased (events ++ [e]) ↔ Unaliased events) :
    (Unaliased (events ++ [e]) → DisjointRegions (regions ++ [r])) ∧
      (¬ Unaliased (events ++ [e]) →
        ∃ off, ⟨.memoSlot, off, 8⟩ ∈ regions ++ [r] ∧ ⟨.literal, off, 8⟩ ∈ regions ++ [r]) := by
  rw [same]
  constructor
  · intro unaliased
    apply disjoint_snoc (sound.separate unaliased)
    intro a mem
    left
    apply Range.apart_of_le
    have := sound.placed.within a mem
    omega
  · intro aliased
    obtain ⟨off, slot, literal⟩ := sound.aliased aliased
    exact ⟨off, List.mem_append_left _ slot, List.mem_append_left _ literal⟩

theorem Sound.more_segments (sound : Sound events regions em) (more : List Region) :
    ∀ s ∈ em.dataSegments, ⟨.literal, s.1, s.2.length⟩ ∈ regions ++ more ∨
      s.2 = Emitter.zeros8 ∧ ⟨.memoSlot, s.1, 8⟩ ∈ regions ++ more := by
  intro s mem
  rcases sound.segments s mem with literal | ⟨zeros, slot⟩
  · exact .inl (List.mem_append_left _ literal)
  · exact .inr ⟨zeros, List.mem_append_left _ slot⟩

/-- A literal whose bytes are there already. -/
theorem Sound.again {bytes : List UInt8} {s : Nat × List UInt8} (sound : Sound events regions em)
    (found : em.dataSegments.find? (fun s => s.2 == bytes) = some s) :
    Sound (events ++ [.literal bytes]) (regions ++ [⟨.literal, s.1, bytes.length⟩]) em := by
  have mem := List.mem_of_find?_eq_some found
  have same : s.2 = bytes := by simpa using List.find?_some found
  have inside : ∃ r ∈ regions, r.range = ⟨s.1, bytes.length⟩ := by
    rcases sound.segments s mem with literal | ⟨zeros, slot⟩
    · exact ⟨_, literal, by rw [same]⟩
    · exact ⟨_, slot, by rw [← same, zeros]; rfl⟩
  have placed : Placed (regions ++ [⟨.literal, s.1, bytes.length⟩]) em := by
    refine ⟨sound.placed.grown, ?_, sound.placed.alignedData, sound.placed.alignedHeap,
      sound.placed.heap, ?_, ?_⟩
    · intro r memR
      rcases List.mem_append.mp memR with old | new
      · exact sound.placed.within r old
      · rw [List.mem_singleton] at new
        subst new
        obtain ⟨r, memR, is⟩ := inside
        have := sound.placed.within r memR
        rw [is] at this
        exact this
    · rcases sound.placed.last with none_ | ⟨r, memR, last⟩
      · exact .inl none_
      · exact .inr ⟨r, List.mem_append_left _ memR, last⟩
    · rcases sound.placed.first with none_ | ⟨r, memR, first⟩ | pinned
      · exact .inl none_
      · exact .inr (.inl ⟨r, List.mem_append_left _ memR, first⟩)
      · exact .inr (.inr pinned)
  have joined : DisjointRegions regions → ⟨.literal, s.1, bytes.length⟩ ∈ regions →
      DisjointRegions (regions ++ [⟨.literal, s.1, bytes.length⟩]) := by
    intro disjoint literal
    apply disjoint_snoc disjoint
    intro a memA
    by_cases equal : a = ⟨.literal, s.1, bytes.length⟩
    · exact .inr ⟨equal, by rw [equal]⟩
    · exact pairwise_members (fun _ _ => Separate.symm) disjoint memA literal equal
  by_cases zeros : bytes = Emitter.zeros8
  · subst zeros
    have known := sound.zeros
    rw [found] at known
    have later : ZerosKnown (events ++ [.literal Emitter.zeros8])
        (regions ++ [⟨.literal, s.1, Emitter.zeros8.length⟩])
        (em.dataSegments.find? fun s => s.2 == Emitter.zeros8) := by
      rw [found]
      exact known.more _ (.inr rfl) _
    refine ⟨placed, sound.more_segments _, later, ?_, ?_⟩
    · intro unaliased
      rw [unaliased_literal] at unaliased
      rcases known with ⟨_, isSlot⟩ | ⟨literal, _⟩
      · exact (unaliased isSlot).elim
      · have before : Unaliased events := fun _ => unaliased
        exact joined (sound.separate before) literal
    · intro aliased
      rw [unaliased_literal, not_not] at aliased
      rcases known with ⟨slot, _⟩ | ⟨_, e, isOther, other⟩
      · exact ⟨s.1, List.mem_append_left _ slot,
          List.mem_append_right _ (List.mem_singleton_self _)⟩
      · rw [aliased] at isOther
        exact (other (Option.some.inj isOther).symm).elim
  · have other : Event.literal bytes ≠ .literal Emitter.zeros8 := fun is => zeros (by cases is; rfl)
    have silent : (Event.literal bytes).makesZeros = false := beq_eq_false_iff_ne.mpr zeros
    refine ⟨placed, sound.more_segments _, sound.zeros.more _ (.inl silent) _, ?_, ?_⟩
    · intro unaliased
      rw [unaliased_snoc other] at unaliased
      apply joined (sound.separate unaliased)
      rcases sound.segments s mem with literal | ⟨isZeros, _⟩
      · rw [same] at literal
        exact literal
      · exact (zeros (same.symm.trans isZeros)).elim
    · intro aliased
      rw [unaliased_snoc other] at aliased
      obtain ⟨off, slot, literal⟩ := sound.aliased aliased
      exact ⟨off, List.mem_append_left _ slot, List.mem_append_left _ literal⟩

/-- A segment of its own. -/
theorem Sound.segment {e : Event} {kind : Kind} {bytes : List UInt8}
    (sound : Sound events regions em) (makes : e.makesZeros = (bytes == Emitter.zeros8))
    (kinds : kind = .literal ∧ e ≠ .memoSlot ∨
      kind = .memoSlot ∧ e = .memoSlot ∧ bytes = Emitter.zeros8)
    (unseen : ∀ bytes, e = .literal bytes →
      em.dataSegments.find? (fun s => s.2 == bytes) = none) :
    Sound (events ++ [e]) (regions ++ [⟨kind, em.nextDataOffset, bytes.length⟩])
      ⟨align8 (em.nextDataOffset + bytes.length), em.heapPtr,
        em.dataSegments ++ [(em.nextDataOffset, bytes)]⟩ := by
  have same : Unaliased (events ++ [e]) ↔ Unaliased events := by
    by_cases is : e = .literal Emitter.zeros8
    · have known := sound.zeros
      rw [unseen _ is] at known
      have none_ : events.find? Event.makesZeros = none := known
      rw [is, unaliased_literal, none_]
      unfold Unaliased
      rw [none_]
      simp
    · exact unaliased_snoc is
  obtain ⟨separate, aliased⟩ := sound.above (r := ⟨kind, em.nextDataOffset, bytes.length⟩)
    (Nat.le_refl _) same
  have here : (⟨kind, em.nextDataOffset, bytes.length⟩ : Region) ∈
      regions ++ [⟨kind, em.nextDataOffset, bytes.length⟩] :=
    List.mem_append_right _ (List.mem_singleton_self _)
  refine ⟨sound.placed.data kind bytes.length _, ?_, ?_, separate, aliased⟩
  · intro s mem
    rcases List.mem_append.mp mem with old | new
    · exact sound.more_segments _ s old
    · rw [List.mem_singleton] at new
      subst new
      rcases kinds with ⟨rfl, _⟩ | ⟨rfl, _, rfl⟩
      · exact .inl here
      · exact .inr ⟨rfl, here⟩
  · show ZerosKnown _ _ ((em.dataSegments ++ [(em.nextDataOffset, bytes)]).find? _)
    rw [List.find?_append]
    have known := sound.zeros
    cases found : em.dataSegments.find? (fun s => s.2 == Emitter.zeros8) with
    | some s =>
        rw [found] at known
        exact known.more _ (.inr rfl) _
    | none =>
        rw [found] at known
        rw [Option.none_or]
        by_cases zeros : bytes = Emitter.zeros8
        · subst zeros
          rw [List.find?_cons_of_pos (by simp)]
          have first : (events ++ [e]).find? Event.makesZeros = some e := by
            rw [find_snoc, show events.find? _ = none from known, makes]
            rfl
          rcases kinds with ⟨rfl, other⟩ | ⟨rfl, rfl, _⟩
          · exact .inr ⟨here, e, first, other⟩
          · exact .inl ⟨here, first⟩
        · rw [List.find?_cons_of_neg (by simpa using zeros)]
          have silent : e.makesZeros = false := by
            rw [makes]
            exact beq_eq_false_iff_ne.mpr zeros
          exact known.more _ (.inl silent) _

theorem Sound.step {e : Event} {more : List Region} {em' : Emitter}
    (sound : Sound events regions em) (handed : Handed em e more em') :
    Sound (events ++ [e]) (regions ++ more) em' := by
  cases handed with
  | again found => exact sound.again found
  | segment makes kinds unseen => exact sound.segment makes kinds unseen
  | space kind size makes noLiteral =>
      obtain ⟨separate, aliased⟩ := sound.above (r := ⟨kind, em.nextDataOffset, size⟩)
        (Nat.le_refl _) (unaliased_snoc noLiteral)
      exact ⟨sound.placed.data kind size _, sound.more_segments _,
        sound.zeros.more _ (.inl makes) _, separate, aliased⟩
  | cell captured =>
      have high : em.nextDataOffset ≤ (em.heapBump ((1 + captured) * 8)).1 := by
        unfold Emitter.heapBump
        rw [← ensureHeapInit_data em]
        exact Nat.le_max_right _ _
      have kept : (em.heapBump ((1 + captured) * 8)).2.dataSegments = em.dataSegments :=
        ensureHeapInit_segments em
      obtain ⟨separate, aliased⟩ := sound.above
        (r := ⟨.cell, (em.heapBump ((1 + captured) * 8)).1, (1 + captured) * 8⟩) high
        (unaliased_snoc (e := .cell captured) (by rintro ⟨⟩))
      refine ⟨sound.placed.cell _ (by omega) (by omega), ?_, ?_, separate, aliased⟩
      · rw [kept]
        exact sound.more_segments _
      · rw [kept]
        exact sound.zeros.more _ (.inl rfl) _
  | heapPtr =>
      have kept : em.heapPtrI32.2.dataSegments = em.dataSegments := by
        unfold Emitter.heapPtrI32
        dsimp only
        split
        · exact ensureHeapInit_segments em
        · exact ensureHeapInit_segments em
      have same : Unaliased (events ++ [.heapPtr]) ↔ Unaliased events :=
        unaliased_snoc (by rintro ⟨⟩)
      have known := sound.zeros.more .heapPtr (.inl rfl) []
      rw [List.append_nil] at known ⊢
      refine ⟨sound.placed.heapPtrI32, ?_, ?_, ?_, ?_⟩
      · rw [kept]
        exact sound.segments
      · rw [kept]
        exact known
      · rw [same]
        exact sound.separate
      · rw [same]
        exact sound.aliased

/-- Over a whole emission. -/
theorem emitted_sound (events : List Event) :
    Sound events (emitted events).1 (emitted events).2 := by
  induction events using List.reverseRecOn with
  | nil => exact sound_fresh
  | append_singleton events e ih =>
      have next := ih.step (apply_handed ih.placed e)
      have unfolded : emitted (events ++ [e]) =
          ((emitted events).1 ++ (e.apply (emitted events).2).1,
            (e.apply (emitted events).2).2) := by
        rw [emitted, List.foldl_append]
        rfl
      rw [unfolded]
      exact next

end Interning

/-! ### The layout of a module -/

/-- Fixed buffers that overlap. -/
def clashes : List (Buffer × Buffer) :=
  [(.inputCacheBuf, .handleTable), (.handleTable, .jsonScanBuf), (.jsonScanBuf, .stdoutBuf),
    (.payloadBuf, .storageCache), (.payloadBuf, .dirtyBitmap)]

theorem buffers_apart :
    Buffer.all.Pairwise fun a b => a.range.Apart b.range ∨ (a, b) ∈ clashes := by
  decide

theorem buffers_below (b : Buffer) : b.range.stop ≤ 139264 ∨ b = .payloadBuf := by
  cases b <;> decide

theorem buffers_far (b : Buffer) : b.range.stop ≤ 262144 := by
  cases b <;> decide

theorem mem_all (b : Buffer) : b ∈ Buffer.all := by
  cases b <;> decide

namespace Program

variable {p : Program}

theorem mem_buffers {b : Buffer} (used : p.uses b = true) :
    ⟨.buffer b, b.range⟩ ∈ p.buffers :=
  List.mem_map.mpr ⟨b, List.mem_filter.mpr ⟨mem_all b, used⟩, rfl⟩

theorem buffers_disjoint (compatible : Compatible p) : DisjointRegions p.buffers := by
  unfold DisjointRegions buffers
  rw [List.pairwise_map]
  have apart := buffers_apart.filter p.uses
  apply apart.imp_of_mem
  intro a b memA memB separate
  have usedA := (List.mem_filter.mp memA).2
  have usedB := (List.mem_filter.mp memB).2
  left
  rcases separate with apart | clash
  · exact apart
  · simp only [clashes, List.mem_cons, Prod.mk.injEq, List.not_mem_nil, or_false] at clash
    rcases clash with ⟨rfl, rfl⟩ | ⟨rfl, rfl⟩ | ⟨rfl, rfl⟩ | ⟨rfl, rfl⟩ | ⟨rfl, rfl⟩
    · have := (compatible.handles usedB).1
      rw [usedA] at this
      cases this
    · have := (compatible.handles usedA).2
      rw [usedB] at this
      cases this
    · have := compatible.scan usedA
      rw [usedB] at this
      cases this
    · have := (compatible.payload usedA).1
      rw [usedB] at this
      cases this
    · have := (compatible.payload usedA).2.1
      rw [usedB] at this
      cases this

end Program

theorem disjoint_append {first second : List Region} :
    DisjointRegions (first ++ second) ↔ DisjointRegions first ∧ DisjointRegions second ∧
      ∀ a ∈ first, ∀ b ∈ second, Separate a b := List.pairwise_append

theorem Separate.apart {a b : Region} (separate : Separate a b) (noLiteral : a.kind ≠ .literal) :
    a.range.Apart b.range := by
  rcases separate with apart | ⟨_, literal⟩
  · exact apart
  · exact (noLiteral literal).elim

/-- Two fixed buffers of a disjoint layout. -/
theorem DisjointRegions.buffers {p : Program} (disjoint : DisjointRegions p.buffers)
    {a b : Buffer} (usedA : p.uses a = true) (usedB : p.uses b = true) (other : a ≠ b) :
    a.range.Apart b.range := by
  have separate := pairwise_members (fun _ _ => Separate.symm) disjoint (Program.mem_buffers usedA)
    (Program.mem_buffers usedB) (fun is => other (by simpa using congrArg Region.kind is))
  exact separate.apart (by rintro ⟨⟩)

section Layouts

variable {p : Program}

/-- What is placed when emission is done. -/
theorem atFinish_placed (p : Program) :
    Placed (emitted p.events).1 p.atFinish ∧ 327680 ≤ p.atFinish.heapPtr :=
  (emitted_sound p.events).placed.ensureHeapInit

/-- The last region reaches into the frame pointer's one, unless there is room. -/
theorem frame_touched (crowded : ¬ Roomy p) :
    ∃ r ∈ (emitted p.events).1, ¬ r.range.Apart ⟨p.atFinish.heapPtrI32.1 - 65536, 65536⟩ := by
  obtain ⟨placed, far⟩ := atFinish_placed p
  have crowded : p.atFinish.heapPtr < p.atFinish.nextDataOffset + 65536 := Nat.lt_of_not_le crowded
  have start : fresh.nextDataOffset = 139264 := rfl
  have ready : p.atFinish.ensureHeapInit = p.atFinish := by
    unfold Emitter.ensureHeapInit
    rw [if_neg (by omega)]
  have top : p.atFinish.heapPtrI32.1 = max p.atFinish.heapPtr p.atFinish.nextDataOffset := by
    unfold Emitter.heapPtrI32
    rw [ready]
    dsimp only
    split
    · show p.atFinish.nextDataOffset = _
      omega
    · omega
  have alignedData := placed.alignedData
  have alignedHeap := placed.alignedHeap
  rcases placed.last with none_ | ⟨r, mem, some_, tight⟩
  · omega
  · refine ⟨r, mem, ?_⟩
    have inside := (placed.within r mem).2
    have stop : r.range.stop = r.range.start + r.range.size := rfl
    rw [top]
    apply Range.not_apart (x := max r.range.start
      (max p.atFinish.heapPtr p.atFinish.nextDataOffset - 65536))
    · omega
    · omega
    · show max p.atFinish.heapPtr p.atFinish.nextDataOffset - 65536 ≤ _
      omega
    · show _ < max p.atFinish.heapPtr p.atFinish.nextDataOffset - 65536 + 65536
      omega

/-- With room, the frame pointer's region and the heap are above all else. -/
theorem heapPtr_of_roomy (roomy : Roomy p) : p.atFinish.heapPtrI32.1 = p.atFinish.heapPtr := by
  obtain ⟨placed, far⟩ := atFinish_placed p
  have ready : p.atFinish.ensureHeapInit = p.atFinish := by
    unfold Emitter.ensureHeapInit
    rw [if_neg (by omega)]
  unfold Roomy at roomy
  unfold Emitter.heapPtrI32
  rw [ready]
  dsimp only
  rw [if_neg (by omega)]

/-- With the payload buffer in use, nothing may be placed at the start of the data. -/
theorem payload_alone (roomy : Roomy p)
    (apart : ∀ r ∈ (emitted p.events).1, Buffer.payloadBuf.range.Apart r.range) :
    p.atFinish.nextDataOffset = fresh.nextDataOffset := by
  obtain ⟨placed, far⟩ := atFinish_placed p
  unfold Roomy at roomy
  rcases placed.first with same | ⟨r, mem, some_, first⟩ | ⟨_, high⟩
  · exact same
  · have meets := apart r mem
    have stop : r.range.stop = r.range.start + r.range.size := rfl
    have start : fresh.nextDataOffset = 139264 := rfl
    refine (Range.not_apart (x := r.range.start) ?_ ?_ (Nat.le_refl _) (by omega) meets).elim
    · show 81920 ≤ _
      omega
    · show _ < 81920 + 65536
      omega
  · omega

/-- What the regions must be apart from, one group of them after the other. -/
theorem layout_groups {p : Program} {regions : List Region} (made : p.layout = some regions) :
    DisjointRegions regions ↔
      (DisjointRegions p.buffers ∧ DisjointRegions (emitted p.events).1 ∧
        ∀ a ∈ p.buffers, ∀ b ∈ (emitted p.events).1, Separate a b) ∧
      (∀ a ∈ p.buffers ++ (emitted p.events).1,
        Separate a ⟨.frame, p.atFinish.heapPtrI32.1 - 65536, 65536⟩ ∧
          Separate a ⟨.heap, p.atFinish.heapPtrI32.1, 2 ^ 32 - p.atFinish.heapPtrI32.1⟩) := by
  unfold Program.layout at made
  split at made
  · cases made
  · simp only [Option.some.injEq] at made
    subst made
    rw [disjoint_append, disjoint_append]
    have tail : DisjointRegions [⟨.frame, p.atFinish.heapPtrI32.1 - 65536, 65536⟩,
        ⟨.heap, p.atFinish.heapPtrI32.1, 2 ^ 32 - p.atFinish.heapPtrI32.1⟩] := by
      obtain ⟨placed, far⟩ := atFinish_placed p
      have above : 65536 ≤ p.atFinish.heapPtrI32.1 := by
        have ready : p.atFinish.ensureHeapInit = p.atFinish := by
          unfold Emitter.ensureHeapInit
          rw [if_neg (by omega)]
        unfold Emitter.heapPtrI32
        rw [ready]
        dsimp only
        split
        · show 65536 ≤ p.atFinish.nextDataOffset
          omega
        · omega
      apply List.pairwise_pair.mpr
      left
      apply Range.apart_of_le
      show p.atFinish.heapPtrI32.1 - 65536 + 65536 ≤ p.atFinish.heapPtrI32.1
      omega
    simp only [tail, true_and, List.mem_cons, List.not_mem_nil, or_false, forall_eq_or_imp,
      forall_eq]

theorem layout_disjoint_iff (p : Program) {regions : List Region}
    (made : p.layout = some regions) :
    DisjointRegions regions ↔ Unaliased p.events ∧ Roomy p ∧ Compatible p := by
  rw [layout_groups made]
  have sound := emitted_sound p.events
  obtain ⟨placed, far⟩ := atFinish_placed p
  have start : fresh.nextDataOffset = 139264 := rfl
  constructor
  · rintro ⟨⟨buffers, data, apart⟩, above⟩
    have roomy : Roomy p := by
      by_contra crowded
      obtain ⟨r, mem, meets⟩ := frame_touched crowded
      have separate := (above r (List.mem_append_right _ mem)).1.symm
      exact meets (separate.apart (by rintro ⟨⟩)).symm
    refine ⟨?_, roomy, ?_, ?_, ?_⟩
    · by_contra aliased
      obtain ⟨off, slot, literal⟩ := sound.aliased aliased
      have separate := pairwise_members (fun _ _ => Separate.symm) data slot literal
        (by simp)
      exact Range.not_apart (x := off) (Nat.le_refl _) (Nat.lt_add_of_pos_right (Nat.succ_pos _))
        (Nat.le_refl _) (Nat.lt_add_of_pos_right (Nat.succ_pos _))
        (separate.apart (by rintro ⟨⟩))
    · intro handles
      constructor
      · rw [Bool.eq_false_iff]
        intro used
        exact absurd (buffers.buffers handles used (by rintro ⟨⟩)) (by decide)
      · rw [Bool.eq_false_iff]
        intro used
        exact absurd (buffers.buffers handles used (by rintro ⟨⟩)) (by decide)
    · intro scan
      rw [Bool.eq_false_iff]
      intro used
      exact absurd (buffers.buffers scan used (by rintro ⟨⟩)) (by decide)
    · intro payload
      refine ⟨?_, ?_, ?_⟩
      · rw [Bool.eq_false_iff]
        intro used
        exact absurd (buffers.buffers payload used (by rintro ⟨⟩)) (by decide)
      · rw [Bool.eq_false_iff]
        intro used
        exact absurd (buffers.buffers payload used (by rintro ⟨⟩)) (by decide)
      · apply payload_alone roomy
        intro r mem
        exact (apart _ (Program.mem_buffers payload) r mem).apart (by rintro ⟨⟩)
  · rintro ⟨unaliased, roomy, compatible⟩
    have top := heapPtr_of_roomy roomy
    unfold Roomy at roomy
    refine ⟨⟨Program.buffers_disjoint compatible, sound.separate unaliased, ?_⟩, ?_⟩
    · intro a memA r memR
      obtain ⟨b, used, rfl⟩ := List.mem_map.mp memA
      have inside := placed.within r memR
      left
      rcases buffers_below b with below | rfl
      · apply Range.apart_of_le
        show b.range.stop ≤ r.range.start
        omega
      · have none_ := (compatible.payload (List.mem_filter.mp used).2).2.2
        have stop : r.range.stop = r.range.start + r.range.size := rfl
        exact (Range.apart_of_empty (by omega)).symm
    · intro a mem
      have stop : a.range.stop ≤ p.atFinish.heapPtr - 65536 := by
        rcases List.mem_append.mp mem with memA | memR
        · obtain ⟨b, used, rfl⟩ := List.mem_map.mp memA
          have := buffers_far b
          show b.range.stop ≤ _
          omega
        · have := placed.within a memR
          omega
      rw [top]
      constructor
      · exact .inl (Range.apart_of_le stop)
      · left
        apply Range.apart_of_le
        show _ ≤ p.atFinish.heapPtr
        omega

end Layouts

/-- No store into one of two regions changes what is read from the other. -/
def KeptApart (a b : Range) : Prop :=
  ∀ (memory : Nat → UInt8) (writes : List (Nat × UInt8)),
    (∀ write ∈ writes, a.start ≤ write.1 ∧ write.1 < a.stop) →
      ∀ y, b.start ≤ y → y < b.stop → storedAll memory writes y = memory y

/-- So for every two regions, but for interned literals that are one. -/
def StoresKeep (regions : List Region) : Prop :=
  regions.Pairwise fun a b =>
    (KeptApart a.range b.range ∧ KeptApart b.range a.range) ∨ (a = b ∧ a.kind = .literal)

theorem DisjointRegions.storesKeep {regions : List Region} (disjoint : DisjointRegions regions) :
    StoresKeep regions := by
  apply List.Pairwise.imp _ disjoint
  rintro a b (apart | same)
  · left
    exact ⟨fun memory writes inside y above below => apart.storedAll inside memory above below,
      fun memory writes inside y above below => apart.symm.storedAll inside memory above below⟩
  · exact .inr same

/-- A literal and a memoized definition, in a module that reads its input once. -/
def greeting : Program where
  events := [.literal [104, 105], .memoSlot, .literal [104, 105]]
  uses b := decide (b = .inputCacheBuf)

def greetingLayout : List Region :=
  [⟨.buffer .inputCacheBuf, 40960, 16384⟩, ⟨.literal, 139264, 2⟩, ⟨.memoSlot, 139272, 8⟩,
    ⟨.literal, 139264, 2⟩, ⟨.frame, 262144, 65536⟩, ⟨.heap, 327680, 4294639616⟩]

/-- `(define (adder n) (lambda (x) (+ x n)))`: one closure cell. -/
def adder : Program where
  events := [.cell 1]
  uses _ := false

end LispRlm.WasmEmit.Layout
