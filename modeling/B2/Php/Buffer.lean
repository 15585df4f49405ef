import B2.Memory.Block
import B2.Php.LiteralPrints

/-!
# The buffer of a template

`add_to_buffer` and `render_template` on a `Memory.Block`. `size_t` arithmetic
is modulo `2 ^ 64` and that of `int` is undefined where it overflows; the
allocator gives up on what it cannot provide, and then the request ends. A call
keeps `Carries` and establishes `Holds`, and it ends the request only where the
heap has no room for the buffer it needs (`addToBuffer_spec`).
-/

namespace B2

namespace Php

open Memory (Block)

/-- How a call ends without a buffer. -/
inductive BufferFailure where
  /-- a write outside the block -/
  | outOfBounds
  | signedOverflow
  /-- the allocator ends the request -/
  | bailout
  deriving DecidableEq

def intMax : Nat := 2 ^ 31 - 1

/-- `Z_STRLEN_P`, an `int`. -/
def zStrlen (str : Text) : Int := (str.length : Int).bmod (2 ^ 32)

/-- A value converted to `size_t`. -/
def sizeT (z : Int) : Nat := (z % 2 ^ 64).toNat

/-- The largest block the allocator provides; no object has half of all addresses. -/
structure Heap where
  limit : Nat
  limit_lt : limit < 2 ^ 63

namespace Heap

def emalloc (heap : Heap) (size : Nat) : Except BufferFailure (Block Char) :=
  if size ≤ heap.limit then .ok (.allocate size) else .error .bailout

def erealloc (heap : Heap) (ptr : Block Char) (size : Nat) : Except BufferFailure (Block Char) :=
  if size ≤ heap.limit then .ok (ptr.resize size) else .error .bailout

end Heap

/-- `template_buffer`. -/
structure TemplateBuffer where
  ptr : Block Char
  strLength : Nat
  allocatedLength : Nat

def bufferChunkSize : Nat := 256

/-- `n + 1` on an `int`. -/
def intSucc (n : Int) : Except BufferFailure Int :=
  if n < intMax then .ok (n + 1) else .error .signedOverflow

/-- `str_len + 1 > BUFFER_CHUNK_SIZE ? str_len + 1 : BUFFER_CHUNK_SIZE`. -/
def growth (str_len : Int) : Except BufferFailure Int := do
  let size ← intSucc str_len
  return if size > bufferChunkSize then size else bufferChunkSize

/-- The buffer made larger. -/
def grow (heap : Heap) (buffer : TemplateBuffer) (str_len : Int) :
    Except BufferFailure TemplateBuffer := do
  let new_length := sizeT (buffer.allocatedLength + (← growth str_len))
  let ptr ← heap.erealloc buffer.ptr new_length
  return { buffer with ptr := ptr, allocatedLength := new_length }

/-- The buffer with room for a string and its terminator. -/
def ensureRoom (heap : Heap) (buffer : TemplateBuffer) (str_len : Int) :
    Except BufferFailure TemplateBuffer :=
  if sizeT (buffer.strLength + str_len + 1) > buffer.allocatedLength then grow heap buffer str_len
  else .ok buffer

/-- The first bytes of a string, as many as `memcpy` reads. -/
def readBytes (str : Text) (size : Nat) : Except BufferFailure Text :=
  if size ≤ str.length then .ok (str.take size) else .error .outOfBounds

/-- A write that has to be inside the block. -/
def written (block : Option (Block Char)) : Except BufferFailure (Block Char) :=
  match block with
  | some ptr => .ok ptr
  | none => .error .outOfBounds

/-- The terminator behind the string. -/
def terminate (buffer : TemplateBuffer) : Except BufferFailure TemplateBuffer := do
  let ptr ← written (buffer.ptr.write buffer.strLength '\x00')
  return { buffer with ptr := ptr }

/-- `add_to_buffer`. -/
def addToBuffer (heap : Heap) (buffer : TemplateBuffer) (str : Text) :
    Except BufferFailure TemplateBuffer := do
  let str_len := zStrlen str
  let buffer ← ensureRoom heap buffer str_len
  let bytes ← readBytes str (sizeT str_len)
  let ptr ← written (buffer.ptr.copy buffer.strLength bytes)
  terminate { buffer with ptr := ptr, strLength := sizeT (buffer.strLength + str_len) }

/-- The size `parseTemplate` gives every template. -/
def estimatedBufferSize : Nat := 200

/-- The buffer before the template runs. -/
def initBuffer (heap : Heap) (estimatedBufferSize : Nat) : Except BufferFailure TemplateBuffer := do
  let ptr ← heap.emalloc estimatedBufferSize
  return ⟨ptr, 0, estimatedBufferSize⟩

/-- The buffer after some calls of `add_to_buffer`. -/
def fillBuffer (heap : Heap) (strs : List Text) : Except BufferFailure TemplateBuffer := do
  strs.foldlM (addToBuffer heap) (← initBuffer heap estimatedBufferSize)

/-! ## What the buffer holds -/

/-- The size of a buffer when a string of the length `n` fits into it. -/
def sizeFor (strLength allocatedLength n : Nat) : Nat :=
  if strLength + n + 1 > allocatedLength then allocatedLength + max (n + 1) bufferChunkSize
  else allocatedLength

/-- The size of a buffer after some strings. -/
def sizeAfter : Nat → Nat → List Text → Nat
  | _, allocatedLength, [] => allocatedLength
  | strLength, allocatedLength, str :: strs =>
    sizeAfter (strLength + str.length) (sizeFor strLength allocatedLength str.length) strs

/-- The largest block that these calls ask for. -/
def requiredHeap (strs : List Text) : Nat := sizeAfter 0 estimatedBufferSize strs

/-- The buffer begins with the strings that were added, and its fields fit its block. -/
structure TemplateBuffer.Carries (buffer : TemplateBuffer) (heap : Heap) (printed : Text) : Prop where
  size : buffer.ptr.size = buffer.allocatedLength
  allocated : buffer.allocatedLength ≤ heap.limit
  length : buffer.strLength = printed.length
  fits : buffer.strLength ≤ buffer.allocatedLength
  reads : buffer.ptr.Reads printed

/-- The string is terminated. -/
def TemplateBuffer.Terminated (buffer : TemplateBuffer) : Prop :=
  buffer.ptr.bytes buffer.strLength = some '\x00'

/-- The buffer holds exactly the strings that were added, and nothing is written outside it. -/
structure TemplateBuffer.Holds (buffer : TemplateBuffer) (printed : Text) : Prop where
  inside : ∀ i, (buffer.ptr.bytes i).isSome → i < buffer.allocatedLength
  length : buffer.strLength = printed.length
  below : buffer.strLength < buffer.allocatedLength
  reads : buffer.ptr.Reads printed
  terminated : buffer.Terminated

section

variable {heap : Heap} {buffer buffer' : TemplateBuffer} {printed str : Text}

theorem sizeT_eq {z : Int} {n : Nat} (h : z = n) (hn : n < 2 ^ 64) : sizeT z = n := by
  unfold sizeT
  omega

theorem intMax_lt : intMax < 2 ^ 31 := by decide

theorem zStrlen_of_lt (h : str.length < intMax) : zStrlen str = str.length := by
  have hmax := intMax_lt
  unfold zStrlen
  rw [Int.bmod_eq_of_le] <;> omega

theorem intSucc_of_lt {n : Nat} (h : n < intMax) : intSucc n = .ok (n + 1) := by
  unfold intSucc
  rw [if_pos (by exact_mod_cast h)]

theorem growth_of_lt {n : Nat} (h : n < intMax) :
    growth n = .ok ((max (n + 1) bufferChunkSize : Nat) : Int) := by
  unfold growth
  rw [intSucc_of_lt h]
  by_cases hlarge : n + 1 > bufferChunkSize
  · have hlarge' : (n : Int) + 1 > bufferChunkSize := by omega
    simp only [bind, Except.bind, pure, Except.pure, if_pos hlarge', max_eq_left hlarge.le]
    rfl
  · have hlarge' : ¬(n : Int) + 1 > bufferChunkSize := by omega
    simp only [bind, Except.bind, pure, Except.pure, if_neg hlarge',
      max_eq_right (Nat.le_of_not_lt hlarge)]

theorem sizeFor_lt (strLength allocatedLength n : Nat) (h : strLength ≤ allocatedLength) :
    strLength + n < sizeFor strLength allocatedLength n := by
  unfold sizeFor
  split_ifs <;> omega

theorem le_sizeFor (strLength allocatedLength n : Nat) :
    allocatedLength ≤ sizeFor strLength allocatedLength n := by
  unfold sizeFor
  split_ifs <;> omega

theorem le_sizeAfter (strs : List Text) : ∀ strLength allocatedLength : Nat,
    allocatedLength ≤ sizeAfter strLength allocatedLength strs := by
  induction strs with
  | nil => exact fun _ _ => le_rfl
  | cons str strs ih =>
    exact fun strLength allocatedLength =>
      (le_sizeFor strLength allocatedLength str.length).trans (ih _ _)

/-- The buffer is made larger, unless the heap has no room for it. -/
theorem grow_spec {n : Nat} (h : buffer.Carries heap printed) (hn : n < intMax) :
    (heap.limit < buffer.allocatedLength + max (n + 1) bufferChunkSize ∧
      grow heap buffer n = .error .bailout) ∨
      ∃ room, grow heap buffer n = .ok room ∧ room.Carries heap printed ∧
        room.allocatedLength = buffer.allocatedLength + max (n + 1) bufferChunkSize := by
  have hlimit := heap.limit_lt
  have hmax := intMax_lt
  have hallocated := h.allocated
  have hfits := h.fits
  have hlength := h.length
  have hsmall : max (n + 1) bufferChunkSize < 2 ^ 32 := max_lt (by omega) (by decide)
  have hnew : sizeT ((buffer.allocatedLength : Int) + (max (n + 1) bufferChunkSize : Nat)) =
      buffer.allocatedLength + max (n + 1) bufferChunkSize :=
    sizeT_eq (by push_cast; rfl) (by omega)
  have hgrow : grow heap buffer n =
      (heap.erealloc buffer.ptr (buffer.allocatedLength + max (n + 1) bufferChunkSize)).map
        fun ptr => ⟨ptr, buffer.strLength,
          buffer.allocatedLength + max (n + 1) bufferChunkSize⟩ := by
    unfold grow
    rw [growth_of_lt hn, ← hnew]
    rfl
  rw [hgrow]
  unfold Heap.erealloc
  by_cases hbail : buffer.allocatedLength + max (n + 1) bufferChunkSize ≤ heap.limit
  · right
    rw [if_pos hbail]
    refine ⟨_, rfl, ⟨rfl, hbail, hlength, ?_, h.reads.resize ?_⟩, rfl⟩
    · exact hfits.trans (Nat.le_add_right _ _)
    · exact (hlength ▸ hfits).trans (Nat.le_add_right _ _)
  · left
    rw [if_neg hbail]
    exact ⟨Nat.lt_of_not_le hbail, rfl⟩

/-- There is room after the test, unless the heap has none. -/
theorem ensureRoom_spec {n : Nat} (h : buffer.Carries heap printed) (hn : n < intMax) :
    (heap.limit < sizeFor buffer.strLength buffer.allocatedLength n ∧
      ensureRoom heap buffer n = .error .bailout) ∨
      ∃ room, ensureRoom heap buffer n = .ok room ∧ room.Carries heap printed ∧
        room.allocatedLength = sizeFor buffer.strLength buffer.allocatedLength n := by
  have hlimit := heap.limit_lt
  have hmax := intMax_lt
  have hallocated := h.allocated
  have hfits := h.fits
  have hneeded : sizeT ((buffer.strLength : Int) + n + 1) = buffer.strLength + n + 1 :=
    sizeT_eq (by push_cast; rfl) (by omega)
  unfold ensureRoom sizeFor
  rw [hneeded]
  by_cases hroom : buffer.strLength + n + 1 > buffer.allocatedLength
  · simp only [if_pos hroom]
    exact grow_spec h hn
  · right
    simp only [if_neg hroom]
    exact ⟨buffer, rfl, h, rfl⟩

/-- One call, from a buffer that carries what was added before. -/
theorem addToBuffer_spec (h : buffer.Carries heap printed) (hstr : str.length < intMax) :
    (heap.limit < sizeFor buffer.strLength buffer.allocatedLength str.length ∧
      addToBuffer heap buffer str = .error .bailout) ∨
      ∃ buffer', addToBuffer heap buffer str = .ok buffer' ∧
        buffer'.Carries heap (printed ++ str) ∧ buffer'.Holds (printed ++ str) ∧
        buffer'.allocatedLength = sizeFor buffer.strLength buffer.allocatedLength str.length := by
  unfold addToBuffer
  rw [zStrlen_of_lt hstr]
  obtain ⟨hlimit, hbail⟩ | ⟨room, hroom, hcarries, hallocated'⟩ := ensureRoom_spec h hstr
  · left
    refine ⟨hlimit, ?_⟩
    simp only [hbail, bind, Except.bind]
  · right
    have hsize := hcarries.size
    have hlength := hcarries.length
    have hlimit := heap.limit_lt
    have hallocated := hcarries.allocated
    have hle : room.strLength + str.length < room.allocatedLength := by
      rw [hallocated', hlength, ← h.length]
      exact sizeFor_lt _ _ _ h.fits
    obtain ⟨copied, hcopy, hcopied⟩ := Block.exists_copy (b := room.ptr) (i := room.strLength)
      (w := str) (by omega)
    obtain ⟨ended, hwrite, hended⟩ := Block.exists_write '\x00' (b := copied)
      (i := room.strLength + str.length) (by omega)
    have hlength' : room.strLength + str.length = (printed ++ str).length := by
      rw [List.length_append]
      omega
    have hbytes : readBytes str (sizeT (str.length : Int)) = .ok str := by
      have hmax := intMax_lt
      unfold readBytes
      rw [sizeT_eq rfl (by omega), if_pos le_rfl, List.take_length]
    have hend : sizeT ((room.strLength : Int) + str.length) = room.strLength + str.length :=
      sizeT_eq (by push_cast; rfl) (by omega)
    have hreads : copied.Reads (printed ++ str) := hcarries.reads.copy (hlength ▸ hcopy)
    have hreads' : ended.Reads (printed ++ str) := hreads.write hwrite (by omega)
    simp only [hroom, bind, Except.bind, hbytes, hcopy, written, hend, terminate, hwrite]
    refine ⟨_, rfl, ⟨?_, hallocated, hlength', ?_, hreads'⟩, ⟨?_, hlength', ?_, hreads', ?_⟩,
      hallocated'⟩
    · show ended.size = room.allocatedLength
      omega
    · show room.strLength + str.length ≤ room.allocatedLength
      omega
    · intro i hi
      have hlt : i < ended.size := Block.lt_size hi
      show i < room.allocatedLength
      omega
    · show room.strLength + str.length < room.allocatedLength
      omega
    · exact Block.bytes_write_self hwrite

theorem initBuffer_spec (heap : Heap) (size : Nat) :
    (heap.limit < size ∧ initBuffer heap size = .error .bailout) ∨
      ∃ buffer, initBuffer heap size = .ok buffer ∧ buffer.Carries heap [] ∧
        buffer.strLength = 0 ∧ buffer.allocatedLength = size := by
  unfold initBuffer Heap.emalloc
  by_cases hle : size ≤ heap.limit
  · right
    rw [if_pos hle]
    exact ⟨_, rfl, ⟨rfl, hle, rfl, Nat.zero_le _, Block.reads_nil⟩, rfl, rfl⟩
  · left
    rw [if_neg hle]
    exact ⟨Nat.lt_of_not_le hle, rfl⟩

end

/-- After some calls, by induction from the first one on. -/
theorem fill_spec {heap : Heap} (strs : List Text) : ∀ (printed : Text) (buffer : TemplateBuffer),
    (∀ s ∈ strs, s.length < intMax) → buffer.Carries heap printed →
    (strs = [] → buffer.Holds printed) →
      (heap.limit < sizeAfter buffer.strLength buffer.allocatedLength strs ∧
        strs.foldlM (addToBuffer heap) buffer = .error .bailout) ∨
        ∃ buffer', strs.foldlM (addToBuffer heap) buffer = .ok buffer' ∧
          buffer'.Holds (printed ++ strs.flatten) ∧
          sizeAfter buffer.strLength buffer.allocatedLength strs ≤ heap.limit := by
  induction strs with
  | nil =>
    intro printed buffer _ hcarries hnil
    right
    exact ⟨buffer, rfl, by simpa using hnil rfl, hcarries.allocated⟩
  | cons str strs ih =>
    intro printed buffer hlen hcarries _
    have hlen' : ∀ s ∈ strs, s.length < intMax := fun s hs => hlen s (List.mem_cons_of_mem _ hs)
    rw [List.foldlM_cons]
    obtain ⟨hlimit, hbail⟩ | ⟨next, hnext, hcarries', hholds, hallocated⟩ :=
      addToBuffer_spec hcarries (hlen str List.mem_cons_self)
    · left
      rw [hbail]
      exact ⟨hlimit.trans_le (le_sizeAfter strs _ _), rfl⟩
    · have hlength : next.strLength = buffer.strLength + str.length := by
        rw [hholds.length, hcarries.length, List.length_append]
      rw [hnext, List.flatten_cons, ← List.append_assoc, sizeAfter, ← hlength, ← hallocated]
      exact ih (printed ++ str) next hlen' hcarries' fun _ => hholds

/-- After every call the buffer holds what was printed, if the heap has room for it; the request
ends if it has not. -/
theorem fillBuffer_holds (heap : Heap) (strs : List Text) (hne : strs ≠ [])
    (hlen : ∀ s ∈ strs, s.length < intMax) :
    (requiredHeap strs ≤ heap.limit →
      ∃ buffer, fillBuffer heap strs = .ok buffer ∧ buffer.Holds strs.flatten) ∧
    (heap.limit < requiredHeap strs → fillBuffer heap strs = .error .bailout) := by
  have hspec : (heap.limit < requiredHeap strs ∧ fillBuffer heap strs = .error .bailout) ∨
      ∃ buffer, fillBuffer heap strs = .ok buffer ∧ buffer.Holds strs.flatten ∧
        requiredHeap strs ≤ heap.limit := by
    unfold fillBuffer requiredHeap
    obtain ⟨hlimit, hbail⟩ | ⟨buffer, hinit, hcarries, hlength, hallocated⟩ :=
      initBuffer_spec heap estimatedBufferSize
    · left
      rw [hbail]
      exact ⟨hlimit.trans_le (le_sizeAfter strs _ _), rfl⟩
    · rw [hinit, ← hlength, ← hallocated]
      exact fill_spec strs [] buffer hlen hcarries fun hnil => absurd hnil hne
  obtain ⟨hlimit, hbail⟩ | ⟨buffer, hfill, hholds, hle⟩ := hspec
  · exact ⟨fun hle => absurd hlimit (Nat.not_lt.2 hle), fun _ => hbail⟩
  · exact ⟨fun _ => ⟨buffer, hfill, hholds⟩, fun hlimit => absurd hle (Nat.not_le.2 hlimit)⟩

/-- Sixteen megabytes. -/
def smallHeap : Heap := ⟨2 ^ 24, by norm_num⟩

/-- Two strings and an empty one. -/
theorem fillBuffer_holds_words :
    ∃ buffer, fillBuffer smallHeap [['a', 'b'], [], ['c']] = .ok buffer ∧
      buffer.Holds ['a', 'b', 'c'] :=
  (fillBuffer_holds smallHeap [['a', 'b'], [], ['c']] (by decide) (by decide)).1 (by decide)

/-! ## The rendered string -/

section

variable {Z W : Type}

/-- `render_template`, for a run of the template with these prints: the buffer that is handed to
`ZVAL_STRINGL`. -/
def renderTemplate (heap : Heap) (S : ZendStrings Z) (prints : List (Print Z)) :
    Except BufferFailure TemplateBuffer :=
  fillBuffer heap (prints.map (·.appended S))

variable {heap : Heap} {buffer buffer' : TemplateBuffer} {str : Text} {strs : List Text}

theorem exists_of_bind_eq_ok {ε α β : Type} {x : Except ε α} {f : α → Except ε β} {b : β}
    (h : x >>= f = .ok b) : ∃ a, x = .ok a ∧ f a = .ok b := by
  cases x with
  | error e => cases h
  | ok a => exact ⟨a, rfl, h⟩

theorem eq_some_of_written {block : Option (Block Char)} {ptr : Block Char}
    (h : written block = .ok ptr) : block = some ptr := by
  cases block with
  | none => cases h
  | some ptr' => exact congrArg some (Except.ok.inj h)

theorem terminate_terminated (h : terminate buffer = .ok buffer') : buffer'.Terminated := by
  obtain ⟨ended, hended, h⟩ := exists_of_bind_eq_ok h
  obtain rfl := Except.ok.inj h
  exact Block.bytes_write_self (eq_some_of_written hended)

theorem addToBuffer_terminated (h : addToBuffer heap buffer str = .ok buffer') :
    buffer'.Terminated := by
  unfold addToBuffer at h
  obtain ⟨room, -, h⟩ := exists_of_bind_eq_ok h
  obtain ⟨bytes, -, h⟩ := exists_of_bind_eq_ok h
  obtain ⟨copied, -, h⟩ := exists_of_bind_eq_ok h
  exact terminate_terminated h

theorem initBuffer_not_terminated {size : Nat} (h : initBuffer heap size = .ok buffer) :
    ¬buffer.Terminated := by
  unfold initBuffer Heap.emalloc at h
  split_ifs at h <;> cases h
  exact nofun

/-- What is terminated was printed to. -/
theorem fillBuffer_terminated_iff (h : fillBuffer heap strs = .ok buffer) :
    buffer.Terminated ↔ strs ≠ [] := by
  unfold fillBuffer at h
  obtain ⟨start, hinit, h⟩ := exists_of_bind_eq_ok h
  cases strs using List.reverseRecOn with
  | nil =>
    obtain rfl := Except.ok.inj h
    simpa using initBuffer_not_terminated hinit
  | append_singleton strs str =>
    rw [List.foldlM_append] at h
    obtain ⟨last, -, h⟩ := exists_of_bind_eq_ok h
    rw [List.foldlM_cons] at h
    obtain ⟨next, hnext, h⟩ := exists_of_bind_eq_ok h
    obtain rfl := Except.ok.inj h
    simpa using addToBuffer_terminated hnext

variable {R : Runtime Z W} {S : ZendStrings Z} {B : IRBuilder} {s : Codegen} {a : AST}
  {m m' : State Z W}

/-- The string that a run of a template hands over is terminated exactly if the rendering prints
something. -/
theorem renderTemplate_terminated_iff (hB : B.Sound R) (hs : s.Clean)
    (hreturns : (LLVMVisitor.visit B a s).result = .ok ()) (hm : m.output = [])
    (hrun : LLVMVisitor.Executes R (LLVMVisitor.visit B a s).log m m')
    (hrender : renderTemplate heap S m'.output = .ok buffer) :
    buffer.Terminated ↔ (R.render (fun _ => none) a m.world).output ≠ [] := by
  obtain ⟨m₁, hm₁, ho⟩ := (LLVMVisitor.correct_of_returns hB hs hreturns).executes m
  obtain rfl : m' = m₁ := Cfg.Halts.unique hrun hm₁
  rw [hm, List.nil_append] at ho
  unfold renderTemplate at hrender
  rw [fillBuffer_terminated_iff hrender, ho, Ne, List.map_eq_nil_iff]

theorem exists_of_isOk {ε α : Type} {x : Except ε α} (h : x.isOk = true) : ∃ a, x = .ok a := by
  cases x with
  | error e => cases h
  | ok a => exact ⟨a, rfl⟩

/-- Where a run starts. -/
def State.empty : State Nat Unit :=
  ⟨fun _ => .pointer false, fun _ _ => .pointer false, fun _ => [], (), []⟩

def noStrings : ZendStrings Nat := ⟨fun _ => [], fun _ => []⟩

/-- A loop that returns in its first turn, after a print. -/
theorem renderTemplate_stopsInLoop : ∃ m' buffer,
    LLVMVisitor.Executes LLVMVisitor.countingRuntime
      (LLVMVisitor.visit .noFolding LLVMVisitor.stopsInLoop .fresh).log .empty m' ∧
    renderTemplate smallHeap noStrings m'.output = .ok buffer ∧ buffer.Terminated := by
  have hsound := IRBuilder.sound_noFolding LLVMVisitor.countingRuntime
  obtain ⟨m', hrun, ho⟩ := (LLVMVisitor.correct_of_returns hsound Codegen.clean_fresh
    (a := LLVMVisitor.stopsInLoop) rfl).executes .empty
  have hrender : renderTemplate smallHeap noStrings m'.output =
      renderTemplate smallHeap noStrings [⟨.printVariant, .variant 0⟩] := by
    rw [ho]
    rfl
  obtain ⟨buffer, hbuffer⟩ := exists_of_isOk
    (x := renderTemplate smallHeap noStrings [⟨.printVariant, .variant 0⟩]) (by decide +kernel)
  refine ⟨m', buffer, hrun, hrender.trans hbuffer, ?_⟩
  exact (renderTemplate_terminated_iff hsound Codegen.clean_fresh rfl rfl hrun
    (hrender.trans hbuffer)).2 (by decide)

/-- An empty template prints nothing, and nothing is written into its buffer. -/
theorem renderTemplate_empty : ∃ m' buffer,
    LLVMVisitor.Executes LLVMVisitor.countingRuntime
      (LLVMVisitor.visit .noFolding (.statements []) .fresh).log .empty m' ∧
    renderTemplate smallHeap noStrings m'.output = .ok buffer ∧ ¬buffer.Terminated := by
  have hsound := IRBuilder.sound_noFolding LLVMVisitor.countingRuntime
  obtain ⟨m', hrun, ho⟩ := (LLVMVisitor.correct_of_returns hsound Codegen.clean_fresh
    (a := .statements []) rfl).executes .empty
  have hrender : renderTemplate smallHeap noStrings m'.output =
      renderTemplate smallHeap noStrings [] := by
    rw [ho]
    rfl
  obtain ⟨buffer, hbuffer⟩ := exists_of_isOk (x := renderTemplate smallHeap noStrings [])
    (by decide +kernel)
  refine ⟨m', buffer, hrun, hrender.trans hbuffer, ?_⟩
  rw [fillBuffer_terminated_iff hbuffer]
  exact fun h => h rfl

end

end Php

end B2
