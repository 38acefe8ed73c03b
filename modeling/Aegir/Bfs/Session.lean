/-
  The writer on a volume (`volume.cc`, `writer.cc`): the calls it makes of the
  allocator and of the volume, and the data streams built on them.

  A `Session` is the world with the calls the writer has made.  The source keeps
  no such list; it is there to say what an operation did.  Making the calls one
  after the other gives the world (`Session.Issues`), so what holds after every
  sequence of calls holds after every operation.

  A stream's runs are found as the source's walkers find them: up to the first
  zero run, direct, then indirect, then double indirect.  The blocks that list
  runs are read before the blocks of the stream are written.
-/
import Aegir.Bfs.Allocator
import Aegir.Bfs.Attribute
import Aegir.Bfs.Tree

namespace Aegir.Bfs

open Aegir.Lib Aegir.Lib.Buf Aegir.Lib.Fallible

def kNumArrayBlocks : ℕ := 4
def kDoubleIndirectArraySize : ℕ := 4096

/-! ## Calls -/

/-- A call the writer makes.  `zeroBlock` and `writeData` are `write_block_now`:
    the zeros of a run just allocated, and one block of `length` bytes from
    `offset` on of the stream `stream`. -/
inductive Command where
  | allocate (maxBlocks minBlocks : ℕ)
  | free (run : Run)
  | writeBlock (block : ℕ) (img : Buf)
  | zeroBlock (block : ℕ)
  | writeData (stream : Buf) (offset length block : ℕ) (img : Buf)

/-- Make the call; only an allocation has a run to answer. -/
def Command.call : Command → M (Option Run)
  | .allocate maxBlocks minBlocks => do
    let run ← Allocator.allocate maxBlocks minBlocks
    pure (some run)
  | .free run => do Allocator.free run; pure none
  | .writeBlock block img => do Bfs.writeBlock block img; pure none
  | .zeroBlock block => do writeBlockNow block zero; pure none
  | .writeData _ _ _ block img => do writeBlockNow block img; pure none

/-- A call that was made, and what it answered. -/
structure Issued where
  command : Command
  answer : Option (Option Run)

/-- The world, with the calls made since the transaction began. -/
structure Session where
  world : World
  issued : List Issued

abbrev W := Act Session

namespace Session

variable {α : Type}

def issue (c : Command) : Fallible Session (Option Run) := fun s =>
  ((c.call s.world).1, ⟨(c.call s.world).2, s.issued ++ [⟨c, (c.call s.world).1⟩]⟩)

def writeBlock (block : ℕ) (img : Buf) : Fallible Session Unit := do
  let _ ← issue (.writeBlock block img)
  pure ()

end Session

namespace Writer

open Session

def world (s : Writer Session) : World := s.store.world

def allocate (maxBlocks minBlocks : ℕ) : W Run := do
  let run ← onStore (issue (.allocate maxBlocks minBlocks))
  .ofOption run

def free (run : Run) : W Unit := do
  let _ ← onStore (issue (.free run))
  pure ()

def writeBlock (block : ℕ) (img : Buf) : W Unit := onStore (Session.writeBlock block img)

def zeroBlock (block : ℕ) : W Unit := do
  let _ ← onStore (issue (.zeroBlock block))
  pure ()

/-- `read_block` into `node_`, and into `work_` -/
def loadNode (block : ℕ) : W Unit := buffers fun s => { s with node := readBlock s.world block }
def loadWork (block : ℕ) : W Unit := buffers fun s => { s with work := readBlock s.world block }

def setStream (f : Buf → Buf) : W Unit := buffers fun s => { s with stream := f s.stream }

def blockSize (s : Writer Session) : ℕ := s.world.vol.blockSize
def perBlock (s : Writer Session) : ℕ := s.world.vol.blockSize / 8
def toBlock (s : Writer Session) (r : Run) : ℕ := s.world.vol.toBlock r

end Writer

/-! ## Walking a stream -/

def runsUpTo (b : Buf) (i n : ℕ) : List Run × Bool :=
  let rs := runsAt b i n
  (rs, rs.length == n)

/-- The runs of one part after the other, up to the first part with a zero run. -/
def walkParts {α : Type} (part : α → List Run × Bool) : List α → List Run × Bool
  | [] => ([], true)
  | a :: as =>
    if (part a).2 then ((part a).1 ++ (walkParts part as).1, (walkParts part as).2) else part a

/-- The runs the blocks of `r` list. -/
def walkArray (w : World) (r : Run) : List Run × Bool :=
  walkParts (fun b => runsUpTo (readBlock w (w.vol.toBlock r + b)) 0 (w.vol.blockSize / 8))
    (List.range r.length)

/-- The runs of the arrays the blocks of `r` list. -/
def walkDouble (w : World) (r : Run) : List Run × Bool :=
  walkParts (fun b =>
    let arrays := runsUpTo (readBlock w (w.vol.toBlock r + b)) 0 (w.vol.blockSize / 8)
    let runs := walkParts (walkArray w) arrays.1
    (runs.1, runs.2 && arrays.2)) (List.range r.length)

/-- The runs of a stream, up to the first zero run. -/
def walkStream (w : World) (stream : Buf) : List Run :=
  let direct := runsUpTo stream DataField.kDirect DataField.kDirectCount
  let indirect := leRun stream DataField.kIndirect
  let doubleIndirect := leRun stream DataField.kDoubleIndirect
  if direct.2 = false then direct.1 else
  let second := if runIsZero indirect then ([], true) else walkArray w indirect
  if second.2 = false then direct.1 ++ second.1 else
  direct.1 ++ second.1 ++ (if runIsZero doubleIndirect then [] else (walkDouble w doubleIndirect).1)

/-! ## Writing a stream -/

namespace Session

/-- `write_part`: `length` bytes of `src` from byte `byte` of the volume on, block by
    block; `fuel` is no less than the bytes. -/
def writePart (write : ℕ → Buf → Fallible Session Unit) : ℕ → ℕ → ℕ → Buf → Fallible Session Unit
  | 0, _, _, _ => pure ()
  | fuel + 1, byte, length, src => do
    if length = 0 then pure () else do
    let s ← .get
    let block := byte / s.world.vol.blockSize
    let within := byte % s.world.vol.blockSize
    let chunk := min (s.world.vol.blockSize - within) length
    write block (if within = 0 ∧ chunk = s.world.vol.blockSize then src
      else blit (readBlock s.world block) within src chunk)
    writePart write fuel (byte + chunk) (length - chunk) (slice src chunk)

/-- Along the runs, the first of which starts at `pos`: `left` bytes from `cursor` on
    of `src`, which starts at `offset`.  Answers the bytes no run covers. -/
def writeRuns (write : ℕ → Buf → Fallible Session Unit) (offset : ℕ) (src : Buf) :
    List Run → ℕ → ℕ → ℕ → Fallible Session ℕ
  | [], _, _, left => pure left
  | r :: rs, pos, cursor, left => do
    let s ← .get
    let lo := max cursor pos
    let hi := min (cursor + left) (pos + s.world.vol.runBytes r)
    if hi ≤ lo then writeRuns write offset src rs (pos + s.world.vol.runBytes r) cursor left
    else do
      writePart write (hi - lo) (s.world.vol.toBlock r * s.world.vol.blockSize + (lo - pos)) (hi - lo)
        (slice src (lo - offset))
      writeRuns write offset src rs (pos + s.world.vol.runBytes r) hi (left - (hi - lo))

/-- `write_stream_impl`, each block by `write` -/
def writeStream (write : ℕ → Buf → Fallible Session Unit) (stream : Buf) (offset : ℕ) (src : Buf)
    (length : ℕ) : Fallible Session Unit := do
  if length = 0 then pure () else do
  let s ← .get
  let left ← writeRuns write offset src (walkStream s.world stream) 0 offset length
  .check (left == 0)

def writeStreamRaw (stream : Buf) (offset : ℕ) (src : Buf) (length : ℕ) : Fallible Session Unit :=
  writeStream Session.writeBlock stream offset src length

def writeData (stream : Buf) (offset length block : ℕ) (img : Buf) : Fallible Session Unit := do
  let _ ← issue (.writeData stream offset length block img)
  pure ()

def writeStreamDirect (stream : Buf) (offset : ℕ) (src : Buf) (length : ℕ) : Fallible Session Unit :=
  writeStream (writeData stream offset length) stream offset src length

end Session

namespace Writer

/-! ## The blocks of a stream -/

/-- The lengths of the runs of an array in `count` blocks from `first` on, each read
    by `load`; whether the array has no zero run. -/
def countArray (load : ℕ → W Unit) (loaded : Writer Session → Buf) :
    ℕ → ℕ → ℕ → W (ℕ × Bool)
  | 0, _, covered => pure (covered, true)
  | count + 1, first, covered => do
    load first
    let s ← .get
    let runs := runsUpTo (loaded s) 0 s.perBlock
    let covered := covered + (runs.1.map Run.length).sum
    if runs.2 then countArray load loaded count (first + 1) covered else pure (covered, false)

def countArrays : List Run → ℕ → W (ℕ × Bool)
  | [], covered => pure (covered, true)
  | array :: arrays, covered => do
    let s ← .get
    let r ← countArray loadWork Writer.work array.length (s.toBlock array) covered
    if r.2 then countArrays arrays r.1 else pure r

/-- The double indirect arrays, in `count` blocks from `first` on. -/
def countDouble : ℕ → ℕ → ℕ → W (ℕ × Bool)
  | 0, _, covered => pure (covered, true)
  | count + 1, first, covered => do
    loadNode first
    let s ← .get
    let arrays := runsUpTo s.node 0 s.perBlock
    let r ← countArrays arrays.1 covered
    if r.2 && arrays.2 then countDouble count (first + 1) r.1 else pure (r.1, false)

/-- `stream_blocks` of the stream in `stream_` -/
def streamBlocks : W ℕ := do
  let s ← .get
  let direct := runsUpTo s.stream DataField.kDirect DataField.kDirectCount
  let covered := (direct.1.map Run.length).sum
  if direct.2 = false then pure covered else do
  let indirect := leRun s.stream DataField.kIndirect
  let r ← if runIsZero indirect then pure (covered, true)
    else countArray loadNode Writer.node indirect.length (s.toBlock indirect) covered
  if r.2 = false then pure r.1 else do
  let doubleIndirect := leRun s.stream DataField.kDoubleIndirect
  if runIsZero doubleIndirect then pure r.1 else do
  let r ← countDouble doubleIndirect.length (s.toBlock doubleIndirect) r.1
  pure r.1

/-! ## Growing a stream -/

def runsContiguous (a b : Run) : Bool :=
  a.allocationGroup == b.allocationGroup && a.start + a.length == b.start

/-- The run at `pos` of `b` grown by `run` when they touch, else `run` at the slot
    after it; the first slot of an array has none before it. -/
def putAfter (b : Buf) (first used : ℕ) (run : Run) : Buf :=
  let last := leRun b (first + (used - 1) * 8)
  if 0 < used ∧ runsContiguous last run then
    putRun b (first + (used - 1) * 8) { last with length := (last.length + run.length) % 2 ^ 16 }
  else putRun b (first + used * 8) run

/-- A field of the stream that counts bytes, grown by a run. -/
def addRange (field : ℕ) (run : Run) : W Unit := do
  let s ← .get
  setStream fun b => put 8 b field (le 8 b field + run.length * s.blockSize)

def doubleIndirectBlocks (s : Writer Session) : ℕ :=
  if kDoubleIndirectArraySize < s.blockSize then 1 else kDoubleIndirectArraySize / s.blockSize

/-- Zeros in the blocks of an array just allocated; it is freed when one is refused. -/
def zeroArray (array : Run) : W Unit := do
  let s ← .get
  .forEach (fun b => (writeBlock (s.toBlock array + b) zero).onFail (.ignore (free array)))
    (List.range array.length)

/-- An array of `unit` blocks in one run. -/
def allocateUnit (unit : ℕ) : W Run := do
  let array ← allocate unit unit
  if array.length < unit then do
    .when (array.length ≠ 0) (.ignore (free array))
    .fail
  else pure array

/-- The run into the first free slot of the indirect blocks, `count` of them from
    `first` on; answers whether there was one. -/
def appendIndirect (run : Run) : ℕ → ℕ → W Bool
  | 0, _ => pure false
  | count + 1, first => do
    loadNode first
    let s ← .get
    let used := (runsAt s.node 0 s.perBlock).length
    if used < s.perBlock then do
      buffers fun s => { s with node := putAfter s.node 0 used run }
      let s ← .get
      writeBlock first s.node
      addRange DataField.kMaxIndirectRange run
      pure true
    else appendIndirect run count (first + 1)

/-- Pieces of `unit` blocks into an array block from its `index`th slot on; answers
    the block, the next slot and what is left of the run. -/
def fillSlots (unit perBlock : ℕ) : ℕ → Buf → ℕ → Run → Buf × ℕ × Run
  | 0, b, index, run => (b, index, run)
  | fuel + 1, b, index, run =>
    let b := putRun b (index % perBlock * 8) { run with length := unit % 2 ^ 16 }
    let run := { run with
      start := (run.start + unit) % 2 ^ 16, length := (run.length + 2 ^ 16 - unit) % 2 ^ 16 }
    if (index + 1) % perBlock ≠ 0 ∧ run.length ≠ 0 then fillSlots unit perBlock fuel b (index + 1) run
    else (b, index + 1, run)

/-- The arrays of one double indirect slot, which is in `node_`; answers the next
    index, what is left of the run and whether the slot was new. -/
def fillArrays (unit indirectIndex : ℕ) : ℕ → ℕ → Run → Bool → W (ℕ × Run × Bool)
  | 0, _, _, _ => .fail
  | fuel + 1, index, run, wrote => do
    let s ← .get
    let slot := leRun s.node (indirectIndex % s.perBlock * 8)
    let (slot, wrote) ← if runIsZero slot then do
        let array ← allocateUnit unit
        zeroArray array
        buffers fun s => { s with node := putRun s.node (indirectIndex % s.perBlock * 8) array }
        pure (array, true)
      else pure (slot, wrote)
    let dataBlock := s.toBlock slot + index / s.perBlock
    loadWork dataBlock
    let s ← .get
    let (b, index, run) := fillSlots unit s.perBlock (2 ^ 16) s.work index run
    buffers fun s => { s with work := b }
    writeBlock dataBlock b
    if index % (s.perBlock * unit) ≠ 0 ∧ run.length ≠ 0 then
      fillArrays unit indirectIndex fuel index run wrote
    else pure (index, run, wrote)

/-- The loop of `append_double`: `loaded` is the block that is in `node_`. -/
def appendSlots (unit : ℕ) (doubleIndirect : Run) : ℕ → ℕ → ℕ → Run → Option ℕ → W Unit
  | 0, _, _, _, _ => .fail
  | fuel + 1, indirectIndex, index, run, loaded => do
    if run.length = 0 then pure () else do
    let s ← .get
    .check (indirectIndex / s.perBlock < doubleIndirect.length)
    let arrayBlock ← match loaded with
      | some block => pure block
      | none => do
        let block := s.toBlock doubleIndirect + indirectIndex / s.perBlock
        loadNode block
        pure block
    let (index, run, wrote) ← fillArrays unit indirectIndex (2 ^ 16) index run false
    let s' ← .get
    .when wrote (writeBlock arrayBlock s'.node)
    let index := if index = s.perBlock * unit then 0 else index
    if (indirectIndex + 1) % s.perBlock = 0 then
      appendSlots unit doubleIndirect fuel (indirectIndex + 1) 0 run none
    else appendSlots unit doubleIndirect fuel (indirectIndex + 1) index run (some arrayBlock)

/-- `append_double`: a run of whole units into the double indirect arrays. -/
def appendDouble (run : Run) : W Unit := do
  let s ← .get
  let unit := s.doubleIndirectBlocks
  let start := le 8 s.stream DataField.kMaxDoubleIndirectRange - le 8 s.stream DataField.kMaxIndirectRange
  let directSize := unit * s.blockSize
  let indirectSize := unit * directSize * s.perBlock
  .check (0 < directSize && 0 < indirectSize)
  appendSlots unit (leRun s.stream DataField.kDoubleIndirect) (2 ^ 16) (start / indirectSize)
    (start % indirectSize / directSize) run none
  addRange DataField.kMaxDoubleIndirectRange run

/-- `append_run`: the run at the end of the stream; answers how much of it is left
    over. -/
def appendRun (run : Run) : W ℕ := do
  let s ← .get
  let used := (runsAt s.stream DataField.kDirect DataField.kDirectCount).length
  if used < DataField.kDirectCount then do
    setStream fun b => putAfter b DataField.kDirect used run
    addRange DataField.kMaxDirectRange run
    pure 0
  else do
  let indirect ← if runIsZero (leRun s.stream DataField.kIndirect) then do
      let array ← allocate kNumArrayBlocks 1
      .check (array.length != 0)
      zeroArray array
      setStream fun b => put 8 (putRun b DataField.kIndirect array) DataField.kMaxIndirectRange
        (le 8 b DataField.kMaxDirectRange)
      pure array
    else pure (leRun s.stream DataField.kIndirect)
  if ← appendIndirect run indirect.length (s.toBlock indirect) then pure 0 else do
  let unit := s.doubleIndirectBlocks
  let s ← .get
  .when (runIsZero (leRun s.stream DataField.kDoubleIndirect)) do
    let array ← allocateUnit unit
    zeroArray array
    setStream fun b => put 8 (putRun b DataField.kDoubleIndirect array)
      DataField.kMaxDoubleIndirectRange (le 8 b DataField.kMaxIndirectRange)
  let usable := run.length / unit * unit
  if usable = 0 then pure run.length else do
  appendDouble { run with length := usable }
  pure (run.length - usable)

/-- `grow_to` of the stream in `stream_`, which covers `covered` blocks: one run
    after the other, each zeroed. -/
def growFrom (needed : ℕ) : ℕ → ℕ → ℕ → W Unit
  | 0, _, _ => .fail
  | fuel + 1, covered, minUnit => do
    if needed ≤ covered then pure () else do
    let want := min (max (needed - covered) minUnit) 65535
    let run ← allocate want minUnit
    if 1 < minUnit ∧ run.length < minUnit then do
      .ignore (free run)
      .fail
    else do
    let s ← .get
    .forEach (fun b => (zeroBlock (s.toBlock run + b)).onFail (.ignore (free run)))
      (List.range run.length)
    let rest ← (appendRun run).onFail (.ignore (free run))
    .when (rest ≠ 0) (.ignore (free { run with
      start := (run.start + (run.length - rest)) % 2 ^ 16, length := rest % 2 ^ 16 }))
    growFrom needed fuel (covered + (run.length - rest)) (if rest ≠ 0 then s.doubleIndirectBlocks else 1)

/-- A run of one unit is taken at least every second time. -/
def growTo (needed covered : ℕ) : W Unit := growFrom needed (2 * (needed - covered) + 2) covered 1

def streams : Streams Session where
  blockSize s := s.world.vol.blockSize
  readBlock s block := readBlock s.world block
  readStream s stream offset length := readStream s.world stream offset length
  writeBlock := Session.writeBlock
  writeStreamRaw := Session.writeStreamRaw
  streamBlocks := streamBlocks
  growTo := growTo

/-! ## Shrinking and freeing a stream -/

def freeRuns : List Run → W Unit := .forEach free

/-- The runs the blocks of `r` list, each block read by `load`. -/
def freeArray (load : ℕ → W Unit) (loaded : Writer Session → Buf) (r : Run) : W Unit := do
  let s ← .get
  .forEach (fun b => do
    load (s.toBlock r + b)
    let s ← .get
    freeRuns (runsAt (loaded s) 0 s.perBlock)) (List.range r.length)

/-- The arrays of a double indirect run, each freed by `done` after its runs. -/
def freeArrays (done : Run → W Unit) (r : Run) : W Unit := do
  let s ← .get
  .forEach (fun b => do
    loadNode (s.toBlock r + b)
    let s ← .get
    .forEach (fun array => do
      freeArray loadWork Writer.work array
      done array) (runsAt s.node 0 s.perBlock)) (List.range r.length)

/-- `free_stream` of the stream in `stream_` -/
def freeStream : W Unit := do
  let s ← .get
  freeRuns (runsAt s.stream DataField.kDirect DataField.kDirectCount)
  let indirect := leRun s.stream DataField.kIndirect
  .when (runIsZero indirect = false) do
    freeArray loadNode Writer.node indirect
    .ignore (free indirect)
  let doubleIndirect := leRun s.stream DataField.kDoubleIndirect
  .when (runIsZero doubleIndirect = false) do
    freeArrays (fun array => .ignore (free array)) doubleIndirect
    .ignore (free doubleIndirect)

def freeDouble : W Unit := do
  let s ← .get
  let doubleIndirect := leRun s.stream DataField.kDoubleIndirect
  if runIsZero doubleIndirect then pure () else do
  freeArrays free doubleIndirect
  free doubleIndirect
  setStream fun b => putRun b DataField.kDoubleIndirect ⟨0, 0, 0⟩

/-- A run of a stream cut to `newBlocks`, with `logical` blocks before it: what
    stays of it, the blocks up to there, and whether it changed. -/
def trimRun (newBlocks logical : ℕ) (run : Run) : W (Run × ℕ × Bool) := do
  if newBlocks ≤ logical then do
    free run
    pure (⟨0, 0, 0⟩, logical, true)
  else if logical + run.length ≤ newBlocks then pure (run, logical + run.length, false)
  else do
    let keep := newBlocks - logical
    free { run with start := (run.start + keep) % 2 ^ 16, length := run.length - keep }
    pure ({ run with length := keep }, logical + keep, true)

/-- The `count` runs of an array from `pos` on, up to its zero run; `load` reads the
    buffer and `store` writes it. -/
def trimArray (load : Writer Session → Buf) (store : Buf → Writer Session → Writer Session)
    (newBlocks : ℕ) : ℕ → ℕ → ℕ → Bool → W (ℕ × Bool)
  | 0, _, logical, changed => pure (logical, changed)
  | count + 1, pos, logical, changed => do
    let s ← .get
    let run := leRun (load s) pos
    if runIsZero run then pure (logical, changed) else do
    let (kept, logical, cut) ← trimRun newBlocks logical run
    .when cut (buffers fun s => store (putRun (load s) pos kept) s)
    trimArray load store newBlocks count (pos + 8) logical (changed || cut)

/-- The indirect blocks, `count` of them from `first` on. -/
def trimIndirect (newBlocks : ℕ) : ℕ → ℕ → ℕ → W ℕ
  | 0, _, logical => pure logical
  | count + 1, first, logical => do
    loadNode first
    let s ← .get
    let (logical, changed) ← trimArray Writer.node (fun b s => { s with node := b }) newBlocks s.perBlock
      0 logical false
    let s ← .get
    .when changed (writeBlock first s.node)
    trimIndirect newBlocks count (first + 1) logical

/-- The part of `trim_stream` that cuts the indirect runs, after `logical` blocks. -/
def trimIndirects (newBlocks logical : ℕ) : W ℕ := do
  let s ← .get
  let indirect := leRun s.stream DataField.kIndirect
  if runIsZero indirect then pure logical else do
  let logical ← trimIndirect newBlocks indirect.length (s.toBlock indirect) logical
  .when (logical ≤ le 8 s.stream DataField.kMaxDirectRange / s.blockSize) do
    free indirect
    setStream fun b => put 8 (putRun b DataField.kIndirect ⟨0, 0, 0⟩) DataField.kMaxIndirectRange 0
  pure logical

/-- `trim_stream` of the stream in `stream_` -/
def trimStream (newBlocks : ℕ) : W Unit := do
  let (logical, _) ← trimArray Writer.stream (fun b s => { s with stream := b }) newBlocks
    DataField.kDirectCount DataField.kDirect 0 false
  let s ← .get
  let logical ← trimIndirects newBlocks logical
  .when (runIsZero (leRun s.stream DataField.kDoubleIndirect) = false) do
    .check (newBlocks ≤ logical)
    freeDouble
    setStream fun b => put 8 b DataField.kMaxDoubleIndirectRange 0
  setStream fun b => put 8 b DataField.kMaxDirectRange
    (((runsAt b DataField.kDirect DataField.kDirectCount).map fun r => r.length * s.blockSize).sum)
  setStream fun b => if runIsZero (leRun b DataField.kIndirect)
    then put 8 b DataField.kMaxIndirectRange 0 else b

/-- Zeros in the stream from `pos` up to `hi`, a buffer at a time. -/
def zeroFrom (hi : ℕ) : ℕ → ℕ → W Unit
  | 0, _ => .fail
  | fuel + 1, pos => do
    if hi ≤ pos then pure () else do
    let chunk := min (hi - pos) kMaxBlockSize
    let s ← .get
    onStore (Session.writeStreamDirect s.stream pos zero chunk)
    zeroFrom hi fuel (pos + chunk)

def zeroRange (lo hi : ℕ) : W Unit := zeroFrom hi (hi - lo + 1) lo

end Writer

/-! ## What the functions of a session do

Each makes calls, and the world after it is the world those calls make. -/

namespace Session

/-- The calls `l`, made one after the other, lead from one world to the other. -/
def Made : World → List Issued → World → Prop
  | w, [], w' => w' = w
  | w, c :: l, w' => c.answer = (c.command.call w).1 ∧ Made (c.command.call w).2 l w'

theorem Made.append {w w' w'' : World} {l l' : List Issued} (h : Made w l w') (h' : Made w' l' w'') :
    Made w (l ++ l') w'' := by
  induction l generalizing w with
  | nil => rw [Made] at h; rw [← h]; exact h'
  | cons c l ih => exact ⟨h.1, ih h.2⟩

def Issues (s s' : Session) : Prop := ∃ l, s'.issued = s.issued ++ l ∧ Made s.world l s'.world

instance : IsPreorder Session Issues where
  refl s := ⟨[], by simp, rfl⟩
  trans := by
    rintro s s' s'' ⟨l, hl, hw⟩ ⟨l', hl', hw'⟩
    exact ⟨l ++ l', by rw [hl', hl, List.append_assoc], hw.append hw'⟩

instance (c : Command) : Keeps Issues (issue c) := ⟨fun s => ⟨[⟨c, (c.call s.world).1⟩], rfl, rfl, rfl⟩⟩

instance (block : ℕ) (img : Buf) : Keeps Issues (writeBlock block img) := by
  unfold writeBlock
  infer_instance

instance (stream : Buf) (offset length block : ℕ) (img : Buf) : Keeps Issues (writeData stream offset length block img) := by
  unfold writeData
  infer_instance

section
variable {write : ℕ → Buf → Fallible Session Unit} [∀ block img, Keeps Issues (write block img)]

instance (fuel byte length : ℕ) (src : Buf) : Keeps Issues (writePart write fuel byte length src) := by
  induction fuel generalizing byte length src with
  | zero => exact keeps_pure ()
  | succ fuel ih =>
    unfold writePart
    dsimp only
    infer_instance

instance (offset : ℕ) (src : Buf) (runs : List Run) (pos cursor left : ℕ) :
    Keeps Issues (writeRuns write offset src runs pos cursor left) := by
  induction runs generalizing pos cursor left with
  | nil => exact keeps_pure left
  | cons r runs ih =>
    unfold writeRuns
    dsimp only
    infer_instance

instance (stream : Buf) (offset : ℕ) (src : Buf) (length : ℕ) :
    Keeps Issues (writeStream write stream offset src length) := by
  unfold writeStream
  infer_instance

end

instance (stream : Buf) (offset : ℕ) (src : Buf) (length : ℕ) : Keeps Issues (writeStreamRaw stream offset src length) := by
  unfold writeStreamRaw
  infer_instance

instance (stream : Buf) (offset : ℕ) (src : Buf) (length : ℕ) : Keeps Issues (writeStreamDirect stream offset src length) := by
  unfold writeStreamDirect
  infer_instance

end Session

namespace Writer

open Session

instance (maxBlocks minBlocks : ℕ) : Keeps (OnStore Issues) (allocate maxBlocks minBlocks) := by
  unfold allocate
  infer_instance

instance (run : Run) : Keeps (OnStore Issues) (free run) := by
  unfold free
  infer_instance

instance (block : ℕ) (img : Buf) : Keeps (OnStore Issues) (writeBlock block img) := by
  unfold writeBlock
  infer_instance

instance (block : ℕ) : Keeps (OnStore Issues) (zeroBlock block) := by
  unfold zeroBlock
  infer_instance

instance (block : ℕ) : Keeps (OnStore Issues) (loadNode block) := by
  unfold loadNode
  infer_instance

instance (block : ℕ) : Keeps (OnStore Issues) (loadWork block) := by
  unfold loadWork
  infer_instance

instance (f : Buf → Buf) : Keeps (OnStore Issues) (setStream f) := by
  unfold setStream
  infer_instance

section
variable {load : ℕ → W Unit} [∀ block, Keeps (OnStore Issues) (load block)]

instance (loaded : Writer Session → Buf) (count first covered : ℕ) : Keeps (OnStore Issues) (countArray load loaded count first covered) := by
  induction count generalizing first covered with
  | zero => exact keeps_pure _
  | succ count ih =>
    unfold countArray
    dsimp only
    infer_instance

instance (runs : List Run) : Keeps (OnStore Issues) (freeRuns runs) := by
  unfold freeRuns
  infer_instance

instance (loaded : Writer Session → Buf) (r : Run) : Keeps (OnStore Issues) (freeArray load loaded r) := by
  unfold freeArray
  infer_instance

end

instance (arrays : List Run) (covered : ℕ) : Keeps (OnStore Issues) (countArrays arrays covered) := by
  induction arrays generalizing covered with
  | nil => exact keeps_pure _
  | cons array arrays ih =>
    unfold countArrays
    infer_instance

instance (count first covered : ℕ) : Keeps (OnStore Issues) (countDouble count first covered) := by
  induction count generalizing first covered with
  | zero => exact keeps_pure _
  | succ count ih =>
    unfold countDouble
    dsimp only
    infer_instance

instance : Keeps (OnStore Issues) (streamBlocks) := by
  unfold streamBlocks
  dsimp only
  infer_instance

instance (field : ℕ) (run : Run) : Keeps (OnStore Issues) (addRange field run) := by
  unfold addRange
  infer_instance

instance (array : Run) : Keeps (OnStore Issues) (zeroArray array) := by
  unfold zeroArray
  infer_instance

instance (unit : ℕ) : Keeps (OnStore Issues) (allocateUnit unit) := by
  unfold allocateUnit
  infer_instance

instance (run : Run) (count first : ℕ) : Keeps (OnStore Issues) (appendIndirect run count first) := by
  induction count generalizing first with
  | zero => exact keeps_pure _
  | succ count ih =>
    unfold appendIndirect
    dsimp only
    repeat' first | infer_instance | refine keeps_bind ?_ fun _ => ?_

instance (unit indirectIndex fuel index : ℕ) (run : Run) (wrote : Bool) : Keeps (OnStore Issues) (fillArrays unit indirectIndex fuel index run wrote) := by
  induction fuel generalizing index run wrote with
  | zero => exact keeps_fail
  | succ fuel ih =>
    unfold fillArrays
    dsimp only
    repeat' first | infer_instance | refine keeps_bind ?_ fun _ => ?_ | split

instance (unit : ℕ) (doubleIndirect : Run) (fuel indirectIndex index : ℕ) (run : Run) (loaded : Option ℕ) : Keeps (OnStore Issues) (appendSlots unit doubleIndirect fuel indirectIndex index run loaded) := by
  induction fuel generalizing indirectIndex index run loaded with
  | zero => exact keeps_fail
  | succ fuel ih =>
    unfold appendSlots
    dsimp only
    repeat' first | infer_instance | refine keeps_bind ?_ fun _ => ?_ | split

instance (run : Run) : Keeps (OnStore Issues) (appendDouble run) := by
  unfold appendDouble
  dsimp only
  infer_instance

instance (run : Run) : Keeps (OnStore Issues) (appendRun run) := by
  unfold appendRun
  dsimp only
  repeat' first | infer_instance | refine keeps_bind ?_ fun _ => ?_ | split

instance (needed fuel covered minUnit : ℕ) : Keeps (OnStore Issues) (growFrom needed fuel covered minUnit) := by
  induction fuel generalizing covered minUnit with
  | zero => exact keeps_fail
  | succ fuel ih =>
    unfold growFrom
    dsimp only
    infer_instance

instance (needed covered : ℕ) : Keeps (OnStore Issues) (growTo needed covered) := by
  unfold growTo
  infer_instance

section
variable {done : Run → W Unit} [∀ array, Keeps (OnStore Issues) (done array)]

instance (r : Run) : Keeps (OnStore Issues) (freeArrays done r) := by
  unfold freeArrays
  infer_instance

end

instance : Keeps (OnStore Issues) (freeStream) := by
  unfold freeStream
  dsimp only
  infer_instance

instance : Keeps (OnStore Issues) (freeDouble) := by
  unfold freeDouble
  dsimp only
  infer_instance

instance (newBlocks logical : ℕ) (run : Run) : Keeps (OnStore Issues) (trimRun newBlocks logical run) := by
  unfold trimRun
  dsimp only
  infer_instance

instance (load : Writer Session → Buf) (store : Buf → Writer Session → Writer Session) (newBlocks count pos logical : ℕ) (changed : Bool) : Keeps (OnStore Issues) (trimArray load store newBlocks count pos logical changed) := by
  induction count generalizing pos logical changed with
  | zero => exact keeps_pure _
  | succ count ih =>
    unfold trimArray
    dsimp only
    infer_instance

instance (newBlocks count first logical : ℕ) : Keeps (OnStore Issues) (trimIndirect newBlocks count first logical) := by
  induction count generalizing first logical with
  | zero => exact keeps_pure _
  | succ count ih =>
    unfold trimIndirect
    dsimp only
    infer_instance

instance (newBlocks logical : ℕ) : Keeps (OnStore Issues) (trimIndirects newBlocks logical) := by
  unfold trimIndirects
  dsimp only
  infer_instance

instance (newBlocks : ℕ) : Keeps (OnStore Issues) (trimStream newBlocks) := by
  unfold trimStream
  dsimp only
  infer_instance

instance (hi fuel pos : ℕ) : Keeps (OnStore Issues) (zeroFrom hi fuel pos) := by
  induction fuel generalizing pos with
  | zero => exact keeps_fail
  | succ fuel ih =>
    unfold zeroFrom
    dsimp only
    infer_instance

instance (lo hi : ℕ) : Keeps (OnStore Issues) (zeroRange lo hi) := by
  unfold zeroRange
  infer_instance

end Writer

end Aegir.Bfs
