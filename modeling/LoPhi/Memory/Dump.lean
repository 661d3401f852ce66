import LoPhi.Memory.Exactness

/-! # Memory dumps

`Machine.memory_dump` reads memory chunk by chunk and writes what it gets to a file.
A failed sensor read comes back as `None` only from a chunk with bad regions in it;
from any other it comes back as no bytes at all, and the dump goes on. -/

namespace LoPhi.Memory.Dump
open LoPhi.Lib.Python LoPhi.Lib.Window LoPhi.Memory.Sensor LoPhi.Memory.Cached LoPhi.Memory.Holes
open LoPhi.Memory.Exactness

/-- `Machine`: its memory sensor, if it has one, and what `memory_get_size` gives. -/
structure Machine where
  memory : Option MemorySensor
  memorySize : Nat

section Model
variable (w : World)

/-- `memory_read`: every exception of the sensor becomes `None`. -/
def memoryRead (mach : Machine) (addr length : Nat) : Option (List UInt8) × Machine :=
  match mach.memory with
  | none => (none, mach)
  | some sensor =>
    match read w sensor addr length with
    | (.error _, sensor) => (none, { mach with memory := some sensor })
    | (.ok data, sensor) => (data, { mach with memory := some sensor })

/-- The loop of `memory_dump`. Every turn advances, so the size is enough fuel. -/
def dumpLoop (totalSize : Nat) : Nat → Machine → Nat → List UInt8 →
    Bool × List UInt8 × Machine
  | 0, mach, _, file => (true, file, mach)
  | fuel + 1, mach, offset, file =>
    if offset < totalSize then
      match memoryRead w mach offset (min cacheChunk (totalSize - offset)) with
      | (none, mach) => (false, file, mach)
      | (some memory, mach) => dumpLoop totalSize fuel mach (offset + cacheChunk) (file ++ memory)
    else (true, file, mach)

/-- `memory_dump`: its result and the file. `created` is whether the file could be. -/
def memoryDump (created : Bool) (mach : Machine) : Bool × List UInt8 × Machine :=
  if created then dumpLoop w mach.memorySize mach.memorySize mach 0 []
  else (false, [], mach)

/-- The calls of `_read_from_sensor` a machine has made. -/
def requestsOf (mach : Machine) : List Request :=
  match mach.memory with
  | none => []
  | some sensor => sensor.requests

/-- Those made by a dump. -/
def dumpRequests (created : Bool) (mach : Machine) : List Request :=
  (requestsOf (memoryDump w created mach).2.2).drop (requestsOf mach).length

end Model

variable {w : World} {mem : Nat → UInt8} {sensor : MemorySensor}

/-- A chunk of the dump with a bad byte in it. -/
def Holed (regions : List (Nat × Nat)) (size k : Nat) : Prop :=
  ¬ Clear regions (k * cacheChunk) (min (k * cacheChunk + cacheChunk) size)

/-- The requests a chunk of the dump leads to lie in that chunk. -/
theorem chunk_of_wants {timeout : Int} {part : Nat × Nat} {r : Request} {k : Nat}
    (h : Wants timeout part r) (hstart : k * cacheChunk ≤ part.1) (hne : part.1 < part.2)
    (hstop : part.2 ≤ k * cacheChunk + cacheChunk) : r.address / cacheChunk = k := by
  obtain ⟨-, haddr, -⟩ | ⟨-, x, hx, hx', haddr, -⟩ := h
  · rw [haddr]
    unfold cacheChunk at hstart hstop ⊢
    omega
  · rw [haddr, Nat.mul_div_cancel _ (by decide)]
    unfold cacheChunk at hstart hstop ⊢
    omega

/-- How the read of one chunk of the dump ends. -/
def ChunkRead (mem : Nat → UInt8) (regions : List (Nat × Nat)) (size k : Nat)
    (made : List Request) (result : Except PyError (Option (List UInt8))) : Prop :=
  ((∀ r ∈ made, r.answered = true) ∧ result =
    .ok (some (window (masked mem regions) (k * cacheChunk)
      (min cacheChunk (size - k * cacheChunk))))) ∨
  (∃ r ∈ made, r.answered = false) ∧
    (¬ Holed regions size k ∧ result = .ok (some []) ∨ Holed regions size k ∧ result = .ok none)

theorem read_chunk (hw : Truthful mem w) (hc : CacheOf mem sensor)
    (hsep : Separated sensor.badMemRegions) {size k : Nat} (hk : k * cacheChunk < size) :
    ∃ made, Progress mem w sensor
        (read w sensor (k * cacheChunk) (min cacheChunk (size - k * cacheChunk))).2 made ∧
      (∀ r ∈ made, r.address / cacheChunk = k) ∧
      ChunkRead mem sensor.badMemRegions size k made
        (read w sensor (k * cacheChunk) (min cacheChunk (size - k * cacheChunk))).1 := by
  have hpos : 0 < cacheChunk := by decide
  have hstop : min (k * cacheChunk + cacheChunk) size =
      k * cacheChunk + min cacheChunk (size - k * cacheChunk) := by omega
  unfold ChunkRead Holed
  rw [hstop]
  have hn : 1 ≤ min cacheChunk (size - k * cacheChunk) := by omega
  have hle : min cacheChunk (size - k * cacheChunk) ≤ cacheChunk := by omega
  generalize min cacheChunk (size - k * cacheChunk) = n at hn hle
  obtain ⟨made, hp, hreads⟩ := read_progress hw hc hsep hn
  refine ⟨made, hp, fun r hr => ?_, ?_⟩
  · obtain ⟨part, h1, h2, h3, -, hwants⟩ := hreads.parts r hr
    exact chunk_of_wants hwants h1 h2 (by omega)
  by_cases hall : ∀ r ∈ made, r.answered = true
  · exact .inl ⟨hall, hreads.answered hall⟩
  · right
    obtain ⟨r, hr, hfail⟩ : ∃ r ∈ made, r.answered = false := by simpa using hall
    have hone : OneChunk sensor.cacheTimeout (k * cacheChunk, k * cacheChunk + n) := by
      right
      unfold cacheChunk at hle ⊢
      dsimp only
      omega
    obtain ⟨hclear, hholed⟩ := hreads.failed ⟨r, hr, hfail⟩ hone
    refine ⟨⟨r, hr, hfail⟩, ?_⟩
    by_cases h : Clear sensor.badMemRegions (k * cacheChunk) (k * cacheChunk + n)
    · exact .inl ⟨fun hnot => hnot h, hclear h⟩
    · exact .inr ⟨h, hholed h⟩

theorem exists_append_of_not {P : Request → Prop} {made made' : List Request}
    (h : ∀ r ∈ made, ¬ P r) : (∃ r ∈ made ++ made', P r) ↔ ∃ r ∈ made', P r := by
  simp only [List.mem_append, or_and_right, exists_or]
  exact or_iff_right fun ⟨r, hr, hP⟩ => h r hr hP

/-- How the dump ends from the `k`-th chunk on: with the bytes of memory if every request is
answered, and with a failure exactly if one is not answered in a chunk with bad bytes. -/
def Dumped (mem : Nat → UInt8) (w : World) (totalSize k : Nat) (sensor : MemorySensor)
    (file : List UInt8) (result : Bool × List UInt8 × Machine) : Prop :=
  ∃ ok bytes sensor' made, result = (ok, file ++ bytes, ⟨some sensor', totalSize⟩) ∧
    Progress mem w sensor sensor' made ∧
    ((∀ r ∈ made, r.answered = true) → bytes =
      window (masked mem sensor.badMemRegions) (k * cacheChunk) (totalSize - k * cacheChunk)) ∧
    (ok = false ↔ ∃ r ∈ made, r.answered = false ∧
      Holed sensor.badMemRegions totalSize (r.address / cacheChunk))

section Dumped
variable {totalSize k : Nat} {file : List UInt8} {result : Bool × List UInt8 × Machine}
  {sensor' : MemorySensor} {made : List Request}

/-- There is no `k`-th chunk. -/
theorem dumped_done (hc : CacheOf mem sensor) (hdone : totalSize ≤ k * cacheChunk) :
    Dumped mem w totalSize k sensor file (true, file, ⟨some sensor, totalSize⟩) := by
  refine ⟨true, [], sensor, [], by simp, Progress.refl hc, fun _ => ?_, by simp⟩
  rw [Nat.sub_eq_zero_of_le hdone]
  rfl

/-- All requests for the `k`-th chunk are answered. -/
theorem Dumped.of_answered (hp : Progress mem w sensor sensor' made)
    (hans : ∀ r ∈ made, r.answered = true)
    (h : Dumped mem w totalSize (k + 1) sensor'
      (file ++ window (masked mem sensor.badMemRegions) (k * cacheChunk)
        (min cacheChunk (totalSize - k * cacheChunk))) result) :
    Dumped mem w totalSize k sensor file result := by
  obtain ⟨ok, bytes, sensor'', made', rfl, hp', hbytes, hok⟩ := h
  rw [hp.regions, Nat.succ_mul] at hbytes
  rw [hp.regions] at hok
  refine ⟨ok, _, sensor'', made ++ made', by rw [List.append_assoc], hp.trans hp',
    fun hall => ?_, ?_⟩
  · rw [hbytes fun r hr => hall r (List.mem_append_right _ hr), ← Nat.sub_sub, ← window_split]
  · rw [exists_append_of_not fun r hr hbad => by simp [hans r hr] at hbad]
    exact hok

/-- One is not, and the chunk has no bad byte: nothing is written, and the dump goes on. -/
theorem Dumped.of_clear (hp : Progress mem w sensor sensor' made)
    (hchunk : ∀ r ∈ made, r.address / cacheChunk = k) {r : Request} (hr : r ∈ made)
    (hfail : r.answered = false) (hclear : ¬ Holed sensor.badMemRegions totalSize k)
    (h : Dumped mem w totalSize (k + 1) sensor' (file ++ []) result) :
    Dumped mem w totalSize k sensor file result := by
  obtain ⟨ok, bytes, sensor'', made', rfl, hp', -, hok⟩ := h
  rw [hp.regions] at hok
  refine ⟨ok, bytes, sensor'', made ++ made', by rw [List.append_nil], hp.trans hp',
    fun hall => ?_, ?_⟩
  · rw [hall r (List.mem_append_left _ hr)] at hfail
    cases hfail
  · rw [exists_append_of_not fun r hr hbad => hclear (hchunk r hr ▸ hbad.2)]
    exact hok

/-- One is not, and the chunk has bad bytes: the dump ends. -/
theorem dumped_failed (hp : Progress mem w sensor sensor' made)
    (hchunk : ∀ r ∈ made, r.address / cacheChunk = k) {r : Request} (hr : r ∈ made)
    (hfail : r.answered = false) (hholed : Holed sensor.badMemRegions totalSize k) :
    Dumped mem w totalSize k sensor file (false, file, ⟨some sensor', totalSize⟩) := by
  refine ⟨false, [], sensor', made, by simp, hp, fun hall => ?_, ?_⟩
  · rw [hall r hr] at hfail
    cases hfail
  · refine ⟨fun _ => ⟨r, hr, hfail, ?_⟩, fun _ => rfl⟩
    rwa [hchunk r hr]

end Dumped

theorem dumpLoop_dumped (hw : Truthful mem w) (totalSize fuel k : Nat)
    (hfuel : totalSize ≤ fuel + k * cacheChunk) (hc : CacheOf mem sensor)
    (hsep : Separated sensor.badMemRegions) (file : List UInt8) :
    Dumped mem w totalSize k sensor file
      (dumpLoop w totalSize fuel ⟨some sensor, totalSize⟩ (k * cacheChunk) file) := by
  induction fuel generalizing sensor k file with
  | zero => exact dumped_done hc (by omega)
  | succ fuel ih =>
    unfold dumpLoop
    by_cases hmore : k * cacheChunk < totalSize
    swap
    · rw [if_neg hmore]
      exact dumped_done hc (by omega)
    rw [if_pos hmore]
    have hpos : 0 < cacheChunk := by decide
    obtain ⟨made, hp, hchunk, hread⟩ := read_chunk hw hc hsep hmore
    unfold memoryRead
    dsimp only
    generalize read w sensor (k * cacheChunk) (min cacheChunk (totalSize - k * cacheChunk)) =
      answer at hp hread
    obtain ⟨result, sensor'⟩ := answer
    dsimp only at hp hread ⊢
    have hrest := fun bytes => ih (k + 1) (by rw [Nat.succ_mul]; omega) hp.cache
      (by rw [hp.regions]; exact hsep) (file ++ bytes)
    rw [Nat.succ_mul] at hrest
    obtain ⟨hans, rfl⟩ | ⟨⟨r, hr, hfail⟩, ⟨hclear, rfl⟩ | ⟨hholed, rfl⟩⟩ := hread
    · exact Dumped.of_answered hp hans (hrest _)
    · exact Dumped.of_clear hp hchunk hr hfail hclear (hrest [])
    · exact dumped_failed hp hchunk hr hfail hholed

/-! ## Faithful dumps -/

/-- The byte `MemorySensor.read` returns for an address when it succeeds. -/
def byteAt (mem : Nat → UInt8) (regions : List (Nat × Nat)) (x : Nat) : Option UInt8 :=
  match (read (exactWorld mem) { badMemRegions := regions } x 1).1 with
  | .ok (some [b]) => some b
  | _ => none

theorem byteAt_eq {regions : List (Nat × Nat)} (hsep : Separated regions) (x : Nat) :
    byteAt mem regions x = some (masked mem regions x) := by
  have hc : CacheOf mem { badMemRegions := regions } := CacheOf.fresh rfl
  have hw := exact_exactWorld mem
  obtain ⟨made, hp, hreads⟩ := read_progress hw.truthful hc hsep (Nat.le_refl 1)
  unfold byteAt
  rw [hreads.answered (hp.answered hw)]
  rfl

/-- A dump that reports success left an image of memory, and one in which a sensor read
failed reports failure. -/
structure Faithful (mem : Nat → UInt8) (regions : List (Nat × Nat)) (size : Nat)
    (made : List Request) (ok : Bool) (file : List UInt8) : Prop where
  image : ok = true → file.length = size ∧ ∀ i < size, file[i]? = byteAt mem regions i
  failed : (∃ r ∈ made, r.answered = false) → ok = false

/-- **A dump is faithful exactly when every sensor read is answered or one of the failed ones
was for a chunk with a bad byte in it.** -/
theorem memoryDump_faithful_iff (hw : Truthful mem w) (hc : CacheOf mem sensor)
    (hsep : Separated sensor.badMemRegions) (size : Nat) (created : Bool) :
    Faithful mem sensor.badMemRegions size (dumpRequests w created ⟨some sensor, size⟩)
        (memoryDump w created ⟨some sensor, size⟩).1
        (memoryDump w created ⟨some sensor, size⟩).2.1 ↔
      (∀ r ∈ dumpRequests w created ⟨some sensor, size⟩, r.answered = true) ∨
        ∃ r ∈ dumpRequests w created ⟨some sensor, size⟩, r.answered = false ∧
          Holed sensor.badMemRegions size (r.address / cacheChunk) := by
  unfold dumpRequests memoryDump
  cases created with
  | false =>
    simp only [Bool.false_eq_true, if_false, requestsOf, List.drop_length]
    exact ⟨fun _ => .inl (by simp), fun _ => ⟨by simp, by simp⟩⟩
  | true =>
    obtain ⟨ok, file, sensor', made, heq, hp, hfile, hok⟩ :=
      dumpLoop_dumped hw size size 0 (by omega) hc hsep []
    rw [Nat.zero_mul, List.nil_append] at heq
    rw [if_pos rfl, heq]
    simp only [requestsOf, hp.requests, List.drop_left]
    constructor
    · intro h
      by_cases hall : ∀ r ∈ made, r.answered = true
      · exact .inl hall
      · exact .inr (hok.mp (h.failed (by simpa using hall)))
    · rintro (hall | hholed)
      · refine ⟨fun _ => ?_, ?_⟩
        · rw [hfile hall, Nat.zero_mul, Nat.sub_zero]
          refine ⟨length_window, fun i hi => ?_⟩
          rw [getElem?_window hi, byteAt_eq hsep, Nat.zero_add]
        · rintro ⟨r, hr, hfail⟩
          rw [hall r hr] at hfail
          cases hfail
      · have hfalse := hok.mpr hholed
        refine ⟨fun h => ?_, fun _ => hfalse⟩
        rw [hfalse] at h
        cases h

/-- A sensor whose first read fails. -/
def failsFirst (mem : Nat → UInt8) : World where
  clock _ := 0
  sensor t address length := if t = 0 then none else some (window mem address length.toNat)

theorem truthful_failsFirst (mem : Nat → UInt8) : Truthful mem (failsFirst mem) := by
  intro t address length
  unfold failsFirst
  dsimp only
  split
  · exact .inl rfl
  · exact .inr rfl

/-- A sensor with one bad region. -/
def holedSensor : MemorySensor := { badMemRegions := [(2, 4)] }

theorem memoryDump_faithful_iff_hole :
    Faithful addresses [(2, 4)] 6
        (dumpRequests (failsFirst addresses) true ⟨some holedSensor, 6⟩)
        (memoryDump (failsFirst addresses) true ⟨some holedSensor, 6⟩).1
        (memoryDump (failsFirst addresses) true ⟨some holedSensor, 6⟩).2.1 ↔
      (∀ r ∈ dumpRequests (failsFirst addresses) true ⟨some holedSensor, 6⟩,
        r.answered = true) ∨
        ∃ r ∈ dumpRequests (failsFirst addresses) true ⟨some holedSensor, 6⟩,
          r.answered = false ∧ Holed [(2, 4)] 6 (r.address / cacheChunk) := by
  have hsep : Separated holedSensor.badMemRegions := ⟨List.pairwise_singleton _ _, by decide⟩
  exact memoryDump_faithful_iff (truthful_failsFirst addresses) (CacheOf.fresh rfl) hsep 6 true

/-- One byte more than a chunk, without bad regions: the first chunk is not read, and the
dump is the last byte alone. -/
theorem memoryDump_shortened :
    (memoryDump (failsFirst addresses) true ⟨some {}, 7681⟩).1 = true ∧
      ¬ Faithful addresses [] 7681 (dumpRequests (failsFirst addresses) true ⟨some {}, 7681⟩)
        (memoryDump (failsFirst addresses) true ⟨some {}, 7681⟩).1
        (memoryDump (failsFirst addresses) true ⟨some {}, 7681⟩).2.1 := by
  have hok : (memoryDump (failsFirst addresses) true ⟨some {}, 7681⟩).1 = true := by
    decide +kernel
  have hfile : (memoryDump (failsFirst addresses) true ⟨some {}, 7681⟩).2.1 = [0] := by
    decide +kernel
  refine ⟨hok, fun h => ?_⟩
  have hlength := (h.image hok).1
  rw [hfile] at hlength
  cases hlength

end LoPhi.Memory.Dump
