import LoPhi.Lib.Window
import LoPhi.Memory.Sensor

/-! # Reads through the cache

The sensor answers a request exactly or not at all. Then the cache holds nothing
but what memory holds, and a read through it gives the requested bytes up to the
first chunk the sensor did not answer for. -/

namespace LoPhi.Memory.Cached
open LoPhi.Lib.Window LoPhi.Memory.Sensor

variable {w : World} {mem : Nat → UInt8} {m m' : MemorySensor}

/-- Every request is answered with the bytes of memory, or fails. -/
def Truthful (mem : Nat → UInt8) (w : World) : Prop :=
  ∀ t address length, w.sensor t address length = none ∨
    w.sensor t address length = some (window mem address length.toNat)

/-- Every request is answered with the bytes of memory. -/
def Exact (mem : Nat → UInt8) (w : World) : Prop :=
  ∀ t address length, w.sensor t address length = some (window mem address length.toNat)

theorem Exact.truthful (h : Exact mem w) : Truthful mem w :=
  fun t address length => .inr (h t address length)

/-- Every cached chunk holds the bytes of memory. -/
def CacheOf (mem : Nat → UInt8) (m : MemorySensor) : Prop :=
  ∀ k entry time, m.cache k = some (entry, time) → entry = window mem (k * cacheChunk) cacheChunk

theorem CacheOf.fresh (h : m.cache = fun _ => none) : CacheOf mem m := by
  intro k entry time hk
  rw [h] at hk
  cases hk

/-- A part of a read: the settings stay, the cache stays true to memory, and the
requests `made` are new, those that are not answered having failed. -/
structure Progress (mem : Nat → UInt8) (w : World) (m m' : MemorySensor)
    (made : List Request) : Prop where
  regions : m'.badMemRegions = m.badMemRegions
  timeout : m'.cacheTimeout = m.cacheTimeout
  requests : m'.requests = m.requests ++ made
  cache : CacheOf mem m'
  failed : ∀ r ∈ made, r.answered = false → ∃ t, w.sensor t r.address r.length = none

theorem Progress.refl (h : CacheOf mem m) : Progress mem w m m [] :=
  ⟨rfl, rfl, (List.append_nil _).symm, h, fun _ hr => by cases hr⟩

theorem Progress.trans {m'' : MemorySensor} {made made' : List Request}
    (h : Progress mem w m m' made) (h' : Progress mem w m' m'' made') :
    Progress mem w m m'' (made ++ made') where
  regions := h'.regions.trans h.regions
  timeout := h'.timeout.trans h.timeout
  requests := by rw [h'.requests, h.requests, List.append_assoc]
  cache := h'.cache
  failed := by
    intro r hr
    cases List.mem_append.mp hr with
    | inl hr => exact h.failed r hr
    | inr hr => exact h'.failed r hr

/-- An exact sensor leaves no request unanswered. -/
theorem Progress.answered {made : List Request} (h : Progress mem w m m' made)
    (hw : Exact mem w) : ∀ r ∈ made, r.answered = true := by
  intro r hr
  cases hans : r.answered with
  | true => rfl
  | false =>
    obtain ⟨t, ht⟩ := h.failed r hr hans
    rw [hw] at ht
    cases ht

/-! ## The sensor and the chunks -/

theorem readFromSensor_progress (hw : Truthful mem w) (hc : CacheOf mem m) (address : Nat)
    (length : Int) :
    ∃ ok, Progress mem w m (readFromSensor w m address length).2 [⟨address, length, ok⟩] ∧
      (readFromSensor w m address length).1 =
        if ok then some (window mem address length.toNat) else none := by
  cases hw m.ticks address length with
  | inl hnone =>
    refine ⟨false, ⟨rfl, rfl, ?_, hc, ?_⟩, hnone⟩
    · simp only [readFromSensor, hnone]
      rfl
    · intro r hr _
      rw [List.mem_singleton.mp hr]
      exact ⟨m.ticks, hnone⟩
  | inr hsome =>
    refine ⟨true, ⟨rfl, rfl, ?_, hc, ?_⟩, hsome⟩
    · simp only [readFromSensor, hsome]
      rfl
    · intro r hr hans
      rw [List.mem_singleton.mp hr] at hans
      cases hans

theorem fetchChunk_progress (hw : Truthful mem w) (hc : CacheOf mem m) (now : Int) (k : Nat) :
    ∃ ok, Progress mem w m (fetchChunk w now m k).2 [⟨k * cacheChunk, cacheChunk, ok⟩] ∧
      (fetchChunk w now m k).1 =
        if ok then some (window mem (k * cacheChunk) cacheChunk) else none := by
  obtain ⟨ok, hp, heq⟩ := readFromSensor_progress hw hc (k * cacheChunk) cacheChunk
  rw [Int.toNat_natCast] at heq
  refine ⟨ok, ?_⟩
  unfold fetchChunk
  generalize readFromSensor w m (k * cacheChunk) cacheChunk = answer at hp heq
  obtain ⟨entry, t⟩ := answer
  cases ok with
  | false =>
    cases heq
    exact ⟨hp, rfl⟩
  | true =>
    cases heq
    refine ⟨⟨hp.regions, hp.timeout, hp.requests, ?_, hp.failed⟩, rfl⟩
    intro j entry time hj
    simp only at hj
    split at hj
    · rename_i hjk
      cases hj
      rw [hjk]
    · exact hp.cache j entry time hj

/-- A chunk: its bytes without a request or with one that is answered, or nothing
and one that is not. -/
theorem chunkEntry_progress (hw : Truthful mem w) (hc : CacheOf mem m) (now : Int) (k : Nat) :
    ∃ made ok, Progress mem w m (chunkEntry w now m k).2 made ∧
      (chunkEntry w now m k).1 =
        (if ok then some (window mem (k * cacheChunk) cacheChunk) else none) ∧
      (∀ r ∈ made, r = ⟨k * cacheChunk, cacheChunk, ok⟩) ∧ (ok = false → made ≠ []) := by
  obtain ⟨ok, hp, heq⟩ := fetchChunk_progress hw hc now k
  unfold chunkEntry
  split
  · exact ⟨_, ok, hp, heq, fun r hr => List.mem_singleton.mp hr, fun _ => List.cons_ne_nil _ _⟩
  · rename_i entry time hk
    split
    · exact ⟨_, ok, hp, heq, fun r hr => List.mem_singleton.mp hr, fun _ => List.cons_ne_nil _ _⟩
    · refine ⟨[], true, Progress.refl hc, ?_, by simp, by simp⟩
      rw [hc k entry time hk]
      rfl

/-! ## Turns of the loop -/

/-- The bytes of a chunk from an address in it on. -/
def inChunk (address : Nat) : Nat := cacheChunk - address % cacheChunk

theorem inChunk_pos (address : Nat) : 0 < inChunk address :=
  Nat.sub_pos_of_lt (Nat.mod_lt _ (by decide))

/-- The next address is the first one of a chunk. -/
theorem add_inChunk_mod (address : Nat) : (address + inChunk address) % cacheChunk = 0 := by
  unfold inChunk cacheChunk
  omega

section Turn
variable {now : Int} {fuel address length : Nat} {datas : List UInt8}

theorem readChunks_empty : readChunks w now fuel m address 0 datas = (datas, m) := by
  cases fuel <;> rfl

theorem readChunks_failed (h0 : length ≠ 0)
    (hentry : chunkEntry w now m (address / cacheChunk) = (none, m')) :
    readChunks w now (fuel + 1) m address length datas = (datas, m') := by
  unfold readChunks
  rw [if_neg h0]
  dsimp only
  rw [hentry]

/-- A turn that finds the bytes of `mem` in its chunk. -/
theorem readChunks_turn (h0 : length ≠ 0)
    (hentry : chunkEntry w now m (address / cacheChunk) =
      (some (window mem (address / cacheChunk * cacheChunk) cacheChunk), m')) :
    readChunks w now (fuel + 1) m address length datas =
      readChunks w now fuel m' (address + inChunk address) (length - inChunk address)
        (datas ++ window mem address (min (inChunk address) length)) := by
  have hoff : address - address / cacheChunk * cacheChunk = address % cacheChunk :=
    Nat.mod_eq_sub_div_mul.symm
  have hstart : address / cacheChunk * cacheChunk + address % cacheChunk = address := by
    rw [Nat.mul_comm]
    exact Nat.div_add_mod address cacheChunk
  have hrest : (window mem (address / cacheChunk * cacheChunk) cacheChunk).drop
      (address % cacheChunk) = window mem address (inChunk address) := by
    rw [drop_window (Nat.le_of_lt (Nat.mod_lt _ (by decide))), hstart]
    rfl
  have hin : cacheChunk - address % cacheChunk = inChunk address := rfl
  have hserved : (if inChunk address < length then window mem address (inChunk address)
      else (window mem address (inChunk address)).take length) =
      window mem address (min (inChunk address) length) := by
    split
    · rw [Nat.min_eq_left (by omega)]
    · rw [take_window (by omega), Nat.min_eq_right (by omega)]
  rw [readChunks, if_neg h0]
  dsimp only
  rw [hentry]
  dsimp only
  rw [hoff, hrest, hin, hserved]

end Turn

/-! ## Reads -/

/-- The request is for a chunk that holds one of the bytes `[address, address + length)`. -/
def ForChunk (address length : Nat) (r : Request) : Prop :=
  ∃ x, address ≤ x ∧ x < address + length ∧ r.address = x / cacheChunk * cacheChunk ∧
    r.length = cacheChunk

/-- The request is for a chunk of the rest. -/
theorem ForChunk.of_rest {address length n : Nat} {r : Request}
    (h : ForChunk (address + n) (length - n) r) : ForChunk address length r := by
  obtain ⟨x, hx, hx', hreq⟩ := h
  exact ⟨x, by omega, by omega, hreq⟩

/-- The whole request is served, or a request failed and the bytes before its chunk
are served. -/
def Served (address length served : Nat) (made : List Request) : Prop :=
  served = length ∧ (∀ r ∈ made, r.answered = true) ∨
    served < length ∧ (served = 0 ∨ (address + served) % cacheChunk = 0) ∧
      ∃ r ∈ made, r.answered = false

section Served
variable {address length served : Nat} {made made' : List Request}

/-- The bytes of a turn and those of the turns after it. -/
theorem Served.window_append
    (h : Served (address + inChunk address) (length - inChunk address) served made) :
    window mem address (min (inChunk address) length) ++
        window mem (address + inChunk address) served =
      window mem address (min (inChunk address) length + served) := by
  rw [window_add]
  by_cases hmore : length ≤ inChunk address
  · obtain rfl : served = 0 := by
      obtain ⟨h, -⟩ | ⟨h, -⟩ := h <;> omega
    rfl
  · rw [Nat.min_eq_left (by omega)]

theorem Served.of_rest (hans : ∀ r ∈ made, r.answered = true)
    (h : Served (address + inChunk address) (length - inChunk address) served made') :
    Served address length (min (inChunk address) length + served) (made ++ made') := by
  cases h with
  | inl h =>
    refine .inl ⟨by omega, fun r hr => ?_⟩
    cases List.mem_append.mp hr with
    | inl hr => exact hans r hr
    | inr hr => exact h.2 r hr
  | inr h =>
    obtain ⟨hless, hstart, r, hr, hfail⟩ := h
    refine .inr ⟨by omega, .inr ?_, r, List.mem_append_right _ hr, hfail⟩
    rw [Nat.min_eq_left (by omega), ← Nat.add_assoc]
    cases hstart with
    | inl hzero => rw [hzero, Nat.add_zero, add_inChunk_mod]
    | inr hmod => exact hmod

end Served

/-- The loop serves the bytes up to the first chunk that is not answered for. -/
theorem readChunks_progress (hw : Truthful mem w) (now : Int) {fuel : Nat} (address length : Nat)
    (hfuel : length ≤ fuel) (hc : CacheOf mem m) (datas : List UInt8) :
    ∃ made served, Progress mem w m (readChunks w now fuel m address length datas).2 made ∧
      (readChunks w now fuel m address length datas).1 = datas ++ window mem address served ∧
      (∀ r ∈ made, ForChunk address length r) ∧ Served address length served made := by
  induction fuel generalizing m address length datas with
  | zero =>
    obtain rfl : length = 0 := by omega
    exact ⟨[], 0, Progress.refl hc, (List.append_nil _).symm, by simp, .inl ⟨rfl, by simp⟩⟩
  | succ fuel ih =>
    by_cases h0 : length = 0
    · subst h0
      rw [readChunks_empty]
      exact ⟨[], 0, Progress.refl hc, (List.append_nil _).symm, by simp, .inl ⟨rfl, by simp⟩⟩
    obtain ⟨made, ok, hp, heq, hmade, hfail⟩ :=
      chunkEntry_progress hw hc now (address / cacheChunk)
    have hfor : ∀ r ∈ made, ForChunk address length r := by
      intro r hr
      rw [hmade r hr]
      exact ⟨address, Nat.le_refl _, by omega, rfl, rfl⟩
    have hans : ∀ r ∈ made, r.answered = ok := by
      intro r hr
      rw [hmade r hr]
    cases hentry : chunkEntry w now m (address / cacheChunk) with
    | mk entry t =>
      rw [hentry] at hp heq
      cases ok with
      | false =>
        cases heq
        rw [readChunks_failed h0 hentry]
        refine ⟨made, 0, hp, (List.append_nil _).symm, hfor, .inr ⟨by omega, .inl rfl, ?_⟩⟩
        obtain ⟨r, hr⟩ := List.exists_mem_of_ne_nil made (hfail rfl)
        exact ⟨r, hr, hans r hr⟩
      | true =>
        cases heq
        rw [readChunks_turn h0 hentry]
        have hpos := inChunk_pos address
        obtain ⟨made', served, hp', heq', hfor', hserved⟩ :=
          ih (address + inChunk address) (length - inChunk address) (by omega) hp.cache
            (datas ++ window mem address (min (inChunk address) length))
        refine ⟨made ++ made', min (inChunk address) length + served, hp.trans hp', ?_, ?_,
          hserved.of_rest hans⟩
        · rw [heq', List.append_assoc, hserved.window_append]
        · intro r hr
          cases List.mem_append.mp hr with
          | inl hr => exact hfor r hr
          | inr hr => exact (hfor' r hr).of_rest

/-- `_read_cached`: the requested bytes up to the first chunk that is not answered
for. Without a cache there is one request, for the bytes themselves. -/
theorem readCached_progress (hw : Truthful mem w) (hc : CacheOf mem m) (address : Nat)
    (length : Int) :
    ∃ made served, Progress mem w m (readCached w m address length).2 made ∧
      (readCached w m address length).1 = window mem address served ∧
      ((m.cacheTimeout ≤ 0 ∧ ∃ ok, made = [⟨address, length, ok⟩] ∧
          served = if ok then length.toNat else 0) ∨
        (0 < m.cacheTimeout ∧ (∀ r ∈ made, ForChunk address length.toNat r) ∧
          Served address length.toNat served made)) := by
  unfold readCached
  split
  · rename_i h0
    obtain ⟨ok, hp, heq⟩ := readFromSensor_progress hw hc address length
    generalize readFromSensor w m address length = answer at hp heq
    obtain ⟨answer, t⟩ := answer
    refine ⟨_, _, hp, ?_, .inl ⟨h0, ok, rfl, rfl⟩⟩
    dsimp only at heq ⊢
    rw [heq]
    cases ok <;> rfl
  · rename_i h0
    have hc' : CacheOf mem { m with ticks := m.ticks + 1 } := hc
    obtain ⟨made, served, hp, heq, hfor, hserved⟩ :=
      readChunks_progress hw (w.clock m.ticks) address length.toNat (Nat.le_refl _) hc' []
    refine ⟨made, served, ?_, heq, .inr ⟨by omega, hfor, hserved⟩⟩
    exact ⟨hp.regions, hp.timeout, hp.requests, hp.cache, hp.failed⟩

/-- With an exact sensor the cache does not show. -/
theorem readCached_exact (hw : Exact mem w) (hc : CacheOf mem m) (address : Nat)
    (length : Int) :
    ∃ made, Progress mem w m (readCached w m address length).2 made ∧
      (readCached w m address length).1 = window mem address length.toNat := by
  obtain ⟨made, served, hp, heq, hhow⟩ := readCached_progress hw.truthful hc address length
  have hans := hp.answered hw
  refine ⟨made, hp, ?_⟩
  rw [heq]
  obtain ⟨-, ok, rfl, rfl⟩ | ⟨-, -, ⟨rfl, -⟩ | ⟨-, -, r, hr, hfail⟩⟩ := hhow
  · rw [show ok = true from hans _ (List.mem_singleton_self _), if_pos rfl]
  · rfl
  · rw [hans r hr] at hfail
    cases hfail

end LoPhi.Memory.Cached
