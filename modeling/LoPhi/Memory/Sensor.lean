import LoPhi.Lib.Python

/-! # The memory sensor

`MemorySensor.read` cuts a request at the regions that must not be read, reads
what is left through a cache of chunks and fills in zeros. The sensor itself and
the clock are outside the program: they answer differently from one moment to
the next, so a `World` gives their answer at every interaction and the object
counts its interactions. -/

namespace LoPhi.Memory.Sensor
open LoPhi.Lib.Python

/-- `CACHE_CHUNK`. -/
def cacheChunk : Nat := 7680

/-- What `time.time()` and `_read_from_sensor(address, length)` give at each
interaction. The sensor may fail (`None`). -/
structure World where
  clock : Nat → Int
  sensor : Nat → Nat → Int → Option (List UInt8)

/-- A call of `_read_from_sensor` and whether it was answered. -/
structure Request where
  address : Nat
  length : Int
  answered : Bool
  deriving DecidableEq, Repr

/-- `MemorySensor`. A region is a pair `[START, END)`. The source's `cache` and
`cache_timeouts` are always assigned together and are one map here. `ticks` counts
the interactions with the world and `requests` lists those with the sensor. -/
structure MemorySensor where
  badMemRegions : List (Nat × Nat) := []
  cacheTimeout : Int := 0
  cache : Nat → Option (List UInt8 × Int) := fun _ => none
  ticks : Nat := 0
  requests : List Request := []

/-- `"\x00" * n`. -/
def zeros (n : Nat) : List UInt8 := List.replicate n 0

section Read
variable (w : World)

def readFromSensor (m : MemorySensor) (address : Nat) (length : Int) :
    Option (List UInt8) × MemorySensor :=
  let answer := w.sensor m.ticks address length
  (answer, { m with
    ticks := m.ticks + 1
    requests := m.requests ++ [⟨address, length, answer.isSome⟩] })

/-- A chunk that is not cached, or whose entry has expired, is read from the sensor
and cached. -/
def fetchChunk (now : Int) (m : MemorySensor) (cacheindex : Nat) :
    Option (List UInt8) × MemorySensor :=
  match readFromSensor w m (cacheindex * cacheChunk) cacheChunk with
  | (none, m) => (none, m)
  | (some entry, m) => (some entry, { m with
      cache := fun k => if k = cacheindex then some (entry, now) else m.cache k })

/-- The entry of a chunk for a turn of the loop of `_read_cached`. -/
def chunkEntry (now : Int) (m : MemorySensor) (cacheindex : Nat) :
    Option (List UInt8) × MemorySensor :=
  match m.cache cacheindex with
  | none => fetchChunk w now m cacheindex
  | some (entry, time) =>
    if time ≤ now - m.cacheTimeout then fetchChunk w now m cacheindex else (some entry, m)

/-- The loop of `_read_cached`. Every turn serves at least one byte, so `length`
is enough fuel. -/
def readChunks (now : Int) : Nat → MemorySensor → Nat → Nat → List UInt8 →
    List UInt8 × MemorySensor
  | 0, m, _, _, datas => (datas, m)
  | fuel + 1, m, address, length, datas =>
    if length = 0 then (datas, m)
    else
      let cacheindex := address / cacheChunk
      let cacheoffset := address - cacheindex * cacheChunk
      let inchunk := cacheChunk - cacheoffset
      match chunkEntry w now m cacheindex with
      | (none, m) => (datas, m)
      | (some entry, m) =>
        let served :=
          if inchunk < length then entry.drop cacheoffset
          else (entry.drop cacheoffset).take length
        readChunks now fuel m (address + inchunk) (length - inchunk) (datas ++ served)

/-- `_read_cached`. A failed read of a sensor without a cache is the empty string. -/
def readCached (m : MemorySensor) (address : Nat) (length : Int) : List UInt8 × MemorySensor :=
  if m.cacheTimeout ≤ 0 then
    let (answer, m) := readFromSensor w m address length
    (answer.getD [], m)
  else
    let now := w.clock m.ticks
    readChunks w now length.toNat { m with ticks := m.ticks + 1 } address length.toNat []

/-- The loop over the bad regions: `none` if one of them holds the entire request,
otherwise `last_bad` and `READS`. -/
def scanRegions (address length : Nat) : List (Nat × Nat) → Option (Nat × Nat) →
    List (Nat × Nat) → Option (Option (Nat × Nat) × List (Nat × Nat))
  | [], lastBad, reads => some (lastBad, reads)
  | bad :: regions, lastBad, reads =>
    if bad.1 ≤ address ∧ address + length ≤ bad.2 then none
    else if address ≤ bad.1 ∧ bad.1 < address + length then
      match lastBad with
      | none =>
        scanRegions address length regions (some bad)
          (if address = bad.1 then reads else reads ++ [(address, bad.1)])
      | some last => scanRegions address length regions (some bad) (reads ++ [(last.2, bad.1)])
    else if address < bad.2 ∧ bad.2 < address + length then
      scanRegions address length regions (some bad) reads
    else scanRegions address length regions lastBad reads

/-- The loop over `READS`: zeros for the gap after the last read, then the read. -/
def issueReads : MemorySensor → Option (Nat × Nat) → List (Nat × Nat) → List UInt8 →
    Option (List UInt8) × MemorySensor
  | m, _, [], data => (some data, m)
  | m, lastRead, read :: reads, data =>
    let gap := match lastRead with
      | none => 0
      | some last => read.1 - last.2
    match readCached w m read.1 (read.2 - read.1) with
    | ([], m) => (none, m)
    | (readData, m) => issueReads m (some read) reads (data ++ zeros gap ++ readData)

/-- `read`. Every entry of `READS` is appended together with an assignment to
`last_bad`, so `READS` is empty when there is no `last_bad`. -/
def read (m : MemorySensor) (address length : Nat) :
    Except PyError (Option (List UInt8)) × MemorySensor :=
  match scanRegions address length m.badMemRegions none [] with
  | none => (.ok (some (zeros length)), m)
  | some (none, _) =>
    let (data, m) := readCached w m address length
    (.ok (some data), m)
  | some (some last, reads) =>
    let reads := if last.2 < address + length then reads ++ [(last.2, address + length)] else reads
    match reads with
    | [] => (.error .indexOutOfRange, m)
    | first :: _ =>
      match issueReads w m none reads (zeros (first.1 - address)) with
      | (none, m) => (.ok none, m)
      | (some data, m) => (.ok (some (data ++ zeros (length - data.length))), m)

end Read

end LoPhi.Memory.Sensor
