import Sniper.Cache.Dish
set_option autoImplicit false

namespace Sniper.Cache
open Sniper.Lib Dish

/-- One superblock's data store: up to four blocks that share a dictionary. The blocks are
kept decompressed in `data`; `table`, `dataPtrs` and `dataOffsets` are their encoding. -/
structure BlockData (n : Nat) where
  scheme : Scheme
  valid : BlockId → Bool
  data : BlockId → Line n
  table : PtrTable Word
  dataPtrs : BlockId → Nat → Nat
  dataOffsets : BlockId → Nat → Byte

variable {n : Nat}

def Dish.Scheme.dictSize : Scheme → Nat
  | .scheme1 => scheme1DictSize
  | .scheme2 => scheme2DictSize
  | _ => 0

/-- The part of a chunk that the dictionary of a scheme holds. -/
def Dish.Scheme.key : Scheme → Word → Word
  | .scheme2 => upper
  | _ => id

/-- The dictionary values a line needs under a scheme. -/
def Line.keys (d : Line n) (c : Scheme) : List Word := d.chunks.map c.key

namespace BlockData

def fresh : BlockData n where
  scheme := .uncompressed
  valid _ := false
  data _ := .zero
  table := .empty
  dataPtrs _ _ := 0
  dataOffsets _ _ := 0

def changeScheme (s : BlockData n) (new : Scheme) : BlockData n :=
  let table :=
    match s.scheme, new with
    | .uncompressed, .scheme1 => s.table.fill scheme1DictSize
    | .uncompressed, .scheme2 => s.table.fill scheme2DictSize
    | .scheme1, .uncompressed => .empty
    | .scheme1, .scheme2 => PtrTable.empty.fill scheme2DictSize
    | .scheme2, .uncompressed => .empty
    | .scheme2, .scheme1 => PtrTable.empty.fill scheme1DictSize
    | _, _ => s.table
  { s with table := table, scheme := new }

def getFirstValid (s : BlockData n) : Option BlockId :=
  (List.finRange superblockSize).find? s.valid

def isValid (s : BlockData n) : Bool := (List.finRange superblockSize).any s.valid

/-- The block of `data[b]` with the bytes behind `src` in place of the slice, built in a
scratch buffer as the compressibility checks do. -/
def testData (s : BlockData n) (b : BlockId) (a : Slice n) (src : Ptr) : Line n :=
  let old := (s.data b).ptr
  let t := copyN old a.offset 0 .zero
  let t := copyN src a.bytes a.offset t
  copyN (old.add (a.offset + a.bytes)) (n - (a.offset + a.bytes)) (a.offset + a.bytes) t

/-- The early-stopping count of values the dictionary does not hold yet. -/
def fitsVacancies (t : PtrTable Word) : List Word → Nat → Bool
  | [], _ => true
  | v :: vs, vacancies =>
    if (t.lookup v).isSome then fitsVacancies t vs vacancies
    else
      match vacancies with
      | 0 => false
      | vacancies + 1 => fitsVacancies t vs vacancies

/-- Either a full new line is written into an invalid block, or the block is valid. -/
def legalSlice (s : BlockData n) (b : BlockId) (a : Slice n) : Bool :=
  (!s.valid b && a.offset == 0 && a.bytes == n) || s.valid b

def otherBlocks (s : BlockData n) (b : BlockId) : List BlockId :=
  (List.finRange superblockSize).filter (fun i => s.valid i && i != b)

/-- The chunks of the one uncompressed line, unless it is the block being written. -/
def uncompressedChunks (s : BlockData n) (b : BlockId) : List Word :=
  match s.getFirstValid with
  | some u => if u ≠ b then (s.data u).chunks else []
  | none => []

def isScheme1Compressible (s : BlockData n) (b : BlockId) (a : Slice n) (wr : Ptr)
    (k : CompressionCntlr) : Outcome Bool := do
  if !s.isValid then return false
  if !k.canCompress then return false
  check (s.legalSlice b a) .assertion
  match s.scheme with
  | .scheme1 =>
    let test := s.testData b a (wr.add a.offset)
    return fitsVacancies s.table test.chunks s.table.free.card
  | .scheme2 =>
    if k.canChangeSchemeOTF then
      -- the inner loop over `j` inserts `data_chunks[i]`, the chunk at the block's own index
      let others := (s.otherBlocks b).flatMap fun i =>
        (List.range (chunksPerBlock n)).map fun _ => (s.data i).chunk i
      let test := s.testData b a (wr.add a.offset)
      return (others ++ test.chunks).toFinset.card ≤ scheme1DictSize
    else return false
  | .uncompressed =>
    let new := (List.range (chunksPerBlock n)).map wr.chunk
    return (s.uncompressedChunks b ++ new).toFinset.card ≤ scheme1DictSize
  | .invalid => return false

def isScheme2Compressible (s : BlockData n) (b : BlockId) (a : Slice n) (wr : Ptr)
    (k : CompressionCntlr) : Outcome Bool := do
  if !s.isValid then return false
  if !k.canCompress then return false
  check (s.legalSlice b a) .assertion
  match s.scheme with
  | .scheme1 =>
    if k.canChangeSchemeOTF then
      let others := (s.otherBlocks b).flatMap fun i => (s.data i).chunks.map upper
      let test := s.testData b a (wr.add a.offset)
      return (others ++ test.chunks.map upper).toFinset.card ≤ scheme2DictSize
    else return false
  | .scheme2 =>
    -- here the new bytes are taken from the start of `wr_data`
    let test := s.testData b a wr
    return fitsVacancies s.table (test.chunks.map upper) s.table.free.card
  | .uncompressed =>
    let new := (List.range (a.bytes / granularityBytes)).map wr.chunk
    return ((s.uncompressedChunks b).map upper ++ new.map upper).toFinset.card ≤ scheme2DictSize
  | .invalid => return false

/-- Whether some valid block holds the value as a full chunk. -/
def entryUsed (s : BlockData n) (v : Word) : Bool :=
  (List.finRange superblockSize).any fun b => s.valid b && (s.data b).chunks.contains v

/-- The erase loop, which `compactScheme1` and `compactScheme2` spell out identically. -/
def eraseUnused (s : BlockData n) : BlockData n := { s with table := s.table.prune s.entryUsed }

def compactScheme1 (s : BlockData n) : BlockData n := s.eraseUnused

def compactScheme2 (s : BlockData n) : BlockData n := s.eraseUnused

def compact (s : BlockData n) : Outcome (BlockData n) :=
  if !s.isValid then .ok s
  else
    match s.scheme with
    | .scheme1 => .ok s.compactScheme1
    | .scheme2 => .ok s.compactScheme2
    | .uncompressed => .ok s
    | .invalid => .error .assertion

def setData (s : BlockData n) (b : BlockId) (d : Line n) : BlockData n :=
  { s with data := Function.update s.data b d }

/-- The loop that inserts every chunk of a block into the dictionary. -/
def encode (o : Order) (c : Scheme) (s : BlockData n) (b : BlockId) : Outcome (BlockData n) :=
  match PtrTable.insertAll o ((s.data b).keys c) s.table with
  | none => .error .dictionaryFull
  | some (ps, table) =>
    let ptrs := fun i => (ps[i]?).getD (s.dataPtrs b i)
    let offsets := fun i =>
      if c = .scheme2 ∧ i < chunksPerBlock n then lower ((s.data b).chunk i)
      else s.dataOffsets b i
    .ok { s with
      table := table
      dataPtrs := Function.update s.dataPtrs b ptrs
      dataOffsets := Function.update s.dataOffsets b offsets }

def encodeAll (o : Order) (c : Scheme) : List BlockId → BlockData n → Outcome (BlockData n)
  | [], s => .ok s
  | b :: bs, s => do
    let s ← s.encode o c b
    encodeAll o c bs s

/-- The common part of `compressScheme1` and `compressScheme2`: the raw bytes are copied from
the start of `wr_data`, then the block, and on a scheme change the blocks already valid, are
entered into the dictionary. -/
def compressAs (o : Order) (c : Scheme) (compressible : Outcome Bool) (s : BlockData n)
    (b : BlockId) (a : Slice n) (wr : Ptr) (k : CompressionCntlr) :
    Outcome (BlockData n × CompressionCntlr) := do
  check s.isValid .assertion
  check (s.legalSlice b a) .assertion
  check ((s.scheme == .uncompressed && a.offset == 0 && a.bytes == n) ||
    s.scheme != .uncompressed) .assertion
  let fits ← compressible
  check fits .notCompressible
  let s := s.setData b (copyN wr a.bytes a.offset (s.data b))
  if s.scheme = c then
    let s ← s.encode o c b
    return (s, k)
  else
    match s.scheme with
    | .uncompressed =>
      let blocks := match s.getFirstValid with
        | some u => if u ≠ b then [u, b] else [b]
        | none => [b]
      let s ← encodeAll o c blocks (s.changeScheme c)
      return (s, k.insert c)
    | .invalid => .error .assertion
    | old =>
      let blocks := (List.finRange superblockSize).filter s.valid
      let s ← encodeAll o c blocks (s.changeScheme c)
      return (s, (k.evict old).insert c)

def compressScheme1 (o : Order) (s : BlockData n) (b : BlockId) (a : Slice n) (wr : Ptr)
    (k : CompressionCntlr) : Outcome (BlockData n × CompressionCntlr) :=
  compressAs o .scheme1 (s.isScheme1Compressible b a wr k) s b a wr k

def compressScheme2 (o : Order) (s : BlockData n) (b : BlockId) (a : Slice n) (wr : Ptr)
    (k : CompressionCntlr) : Outcome (BlockData n × CompressionCntlr) :=
  compressAs o .scheme2 (s.isScheme2Compressible b a wr k) s b a wr k

/-- The first scheme whose check accepts. -/
def firstFit : List (Scheme × Outcome Bool) → Outcome Scheme
  | [] => .ok .invalid
  | (c, fits) :: rest => do
    if ← fits then return c
    firstFit rest

def getSchemeForWrite (s : BlockData n) (b : BlockId) (a : Slice n) (wr : Ptr)
    (k : CompressionCntlr) : Outcome Scheme :=
  let try1 := (Scheme.scheme1, s.isScheme1Compressible b a wr k)
  let try2 := (Scheme.scheme2, s.isScheme2Compressible b a wr k)
  if !s.isValid || !s.valid b then .ok .invalid
  else
    match s.scheme with
    | .uncompressed => .ok .uncompressed
    | .scheme1 => firstFit (if k.canChangeSchemeOTF then [try1, try2] else [try1])
    | .scheme2 => firstFit (if k.canChangeSchemeOTF then [try2, try1] else [try2])
    | .invalid => .error .assertion

def getSchemeForInsertion (s : BlockData n) (b : BlockId) (wr : Ptr) (k : CompressionCntlr) :
    Outcome Scheme :=
  let try1 := (Scheme.scheme1, s.isScheme1Compressible b .full wr k)
  let try2 := (Scheme.scheme2, s.isScheme2Compressible b .full wr k)
  if k.canCompress then
    if s.isValid then
      if s.valid b then .ok .invalid
      else
        match s.scheme with
        | .uncompressed =>
          match k.getDefaultScheme with
          | .scheme1 => firstFit [try1, try2]
          -- the second test repeats the check of SCHEME2 and answers SCHEME1
          | .scheme2 => firstFit [try2, (.scheme1, s.isScheme2Compressible b .full wr k)]
          | _ => .error .assertion
        | .scheme1 => firstFit (if k.canChangeSchemeOTF then [try1, try2] else [try1])
        | .scheme2 => firstFit (if k.canChangeSchemeOTF then [try2, try1] else [try2])
        | .invalid => .error .assertion
    else .ok .uncompressed
  else if s.isValid then .ok .invalid
  else .ok .uncompressed

def canWriteBlockData (s : BlockData n) (b : BlockId) (a : Slice n) (wr : Option Ptr)
    (k : CompressionCntlr) : Outcome Bool := do
  check ((wr.isNone && a.offset == 0 && a.bytes == 0) || wr.isSome) .assertion
  if !s.valid b then return false
  match wr with
  | none => return true
  | some wr =>
    let scheme ← s.getSchemeForWrite b a wr k
    return scheme != .invalid

def compactIfPruning (k : CompressionCntlr) (s : BlockData n) : Outcome (BlockData n) :=
  if k.shouldPruneDISHEntries then s.compact else .ok s

/-- The switch of `writeBlockData` over the scheme of the write. -/
def storeWritten (o : Order) (s : BlockData n) (b : BlockId) (a : Slice n) (wr : Ptr)
    (k : CompressionCntlr) : Scheme → Outcome (BlockData n × CompressionCntlr)
  | .uncompressed => .ok (s.setData b (copyN (wr.add a.offset) a.bytes a.offset (s.data b)), k)
  | .scheme1 => s.compressScheme1 o b a wr k
  | .scheme2 => s.compressScheme2 o b a wr k
  | .invalid => .error .assertion

def writeBlockData (o : Order) (s : BlockData n) (b : BlockId) (a : Slice n) (wr : Option Ptr)
    (k : CompressionCntlr) : Outcome (BlockData n × CompressionCntlr) := do
  check (wr.isSome || (wr.isNone && a.bytes == 0)) .assertion
  match wr with
  | none =>
    let s ← compactIfPruning k s
    return (s, k)
  | some wr =>
    let scheme ← s.getSchemeForWrite b a wr k
    let (s, k) ← storeWritten o s b a wr k scheme
    let s ← compactIfPruning k s
    return (s, k)

/-- The bytes go to the slice's own place in the read buffer. -/
def readBlockData (s : BlockData n) (b : BlockId) (a : Slice n) (rd : Option (Line n)) :
    Outcome (Option (Line n)) := do
  check (rd.isSome || (rd.isNone && a.bytes == 0)) .assertion
  match rd with
  | none => return none
  | some rd =>
    check (s.valid b) .blockInvalid
    return some (copyN ((s.data b).ptr.add a.offset) a.bytes a.offset rd)

def canInsertBlockData (s : BlockData n) (b : BlockId) (ins : Option Ptr) (k : CompressionCntlr) :
    Outcome Bool := do
  if s.valid b then return false
  match ins with
  | none => return true
  | some ins =>
    let scheme ← s.getSchemeForInsertion b ins k
    return scheme != .invalid

def setValid (s : BlockData n) (b : BlockId) (v : Bool) : BlockData n :=
  { s with valid := Function.update s.valid b v }

/-- The switch of `insertBlockData` over the scheme of the insertion. -/
def storeInserted (o : Order) (s : BlockData n) (b : BlockId) (ins : Ptr)
    (k : CompressionCntlr) : Scheme → Outcome (BlockData n × CompressionCntlr)
  | .uncompressed => .ok (s.setData b (copyN ins n 0 (s.data b)), k)
  | .scheme1 => s.compressScheme1 o b .full ins k
  | .scheme2 => s.compressScheme2 o b .full ins k
  | .invalid => .error .assertion

def insertBlockData (o : Order) (s : BlockData n) (b : BlockId) (ins : Option Ptr)
    (k : CompressionCntlr) : Outcome (BlockData n × CompressionCntlr) := do
  check (!s.valid b) .blockExists
  match ins with
  | none =>
    let s ← compactIfPruning k (s.setValid b true)
    return (s, k)
  | some ins =>
    let scheme ← s.getSchemeForInsertion b ins k
    let (s, k) ← storeInserted o s b ins k scheme
    let s ← compactIfPruning k (s.setValid b true)
    return (s, k)

/-- Drop a block and blank its bytes; the last one leaves the superblock uncompressed. -/
def dropBlock (s : BlockData n) (b : BlockId) (k : CompressionCntlr) :
    BlockData n × CompressionCntlr :=
  let s := (s.setValid b false).setData b .zero
  if !s.isValid then (s.changeScheme .uncompressed, k.evict s.scheme) else (s, k)

def evictBlockData (s : BlockData n) (b : BlockId) (k : CompressionCntlr) :
    Outcome (Line n × BlockData n × CompressionCntlr) := do
  check (s.valid b) .blockInvalid
  let line := s.data b
  let (s, k) := s.dropBlock b k
  if s.isValid then
    let s ← compactIfPruning k s
    return (line, s, k)
  else return (line, s, k)

def invalidateBlockData (s : BlockData n) (b : BlockId) (k : CompressionCntlr) :
    BlockData n × CompressionCntlr := s.dropBlock b k

end BlockData

end Sniper.Cache
