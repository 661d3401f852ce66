import LoPhi.Memory.Holes

/-! # Requests around bad regions when the sensor fails

`read` takes a sub-read that brings nothing for a failure of the request. `_read_cached`, though,
returns the bytes it has when a later chunk fails, and `read` appends them as if they were all:
what follows moves forward, and zeros make up for it at the end.

How many bytes come back does not depend on what they are. The outline of a sensor forgets the
content of its cache and says which requests are made and which bytes are served. -/

namespace LoPhi.Memory.Shifts
open LoPhi.Lib.Python LoPhi.Lib.Window LoPhi.Memory.Sensor LoPhi.Memory.Cached LoPhi.Memory.Holes

/-- What the world does at each interaction, whatever memory holds: the clock, and the requests
that fail. -/
structure Pattern where
  clock : Nat → Int
  fails : Nat → Nat → Int → Bool

/-- The requests that do not fail are answered with the bytes of memory. -/
def Pattern.world (p : Pattern) (mem : Nat → UInt8) : World where
  clock := p.clock
  sensor t address length :=
    if p.fails t address length then none else some (window mem address length.toNat)

/-- A memory sensor without the content of its cache: the dates of the chunks are left. -/
structure Outline where
  badMemRegions : List (Nat × Nat) := []
  cacheTimeout : Int := 0
  dates : Nat → Option Int := fun _ => none
  ticks : Nat := 0

/-- The sensor with an outline, its chunks cached as memory holds them. -/
def Outline.sensor (o : Outline) (mem : Nat → UInt8) : MemorySensor where
  badMemRegions := o.badMemRegions
  cacheTimeout := o.cacheTimeout
  cache k := (o.dates k).map fun time => (window mem (k * cacheChunk) cacheChunk, time)
  ticks := o.ticks

/-! ## What comes back -/

section Outline
variable (p : Pattern)

/-- A chunk is asked for. -/
def Outline.fetch (now : Int) (o : Outline) (k : Nat) : Bool × Outline :=
  if p.fails o.ticks (k * cacheChunk) cacheChunk then (false, { o with ticks := o.ticks + 1 })
  else (true, { o with
    ticks := o.ticks + 1
    dates := fun j => if j = k then some now else o.dates j })

/-- Whether a chunk can be had, from the cache or by a request. -/
def Outline.chunk (now : Int) (o : Outline) (k : Nat) : Bool × Outline :=
  match o.dates k with
  | none => o.fetch p now k
  | some time => if time ≤ now - o.cacheTimeout then o.fetch p now k else (true, o)

/-- The number of bytes served, up to the first chunk that cannot be had. -/
def Outline.chunks (now : Int) : Nat → Outline → Nat → Nat → Nat × Outline
  | 0, o, _, _ => (0, o)
  | fuel + 1, o, address, length =>
    if length = 0 then (0, o)
    else
      match o.chunk p now (address / cacheChunk) with
      | (false, o) => (0, o)
      | (true, o) =>
        let (served, o) := chunks now fuel o (address + inChunk address) (length - inChunk address)
        (min (inChunk address) length + served, o)

/-- The number of bytes a sub-read is served. -/
def Outline.share (o : Outline) (part : Nat × Nat) : Nat × Outline :=
  if o.cacheTimeout ≤ 0 then
    (if p.fails o.ticks part.1 ((part.2 : Int) - part.1) then 0 else part.2 - part.1,
      { o with ticks := o.ticks + 1 })
  else
    Outline.chunks p (p.clock o.ticks) (part.2 - part.1) { o with ticks := o.ticks + 1 } part.1
      (part.2 - part.1)

/-- The numbers of bytes of the sub-reads of a request, up to the first that brings nothing. -/
def Outline.shares (o : Outline) : List (Nat × Nat) → List Nat
  | [] => []
  | part :: parts =>
    match o.share p part with
    | (0, _) => [0]
    | (n + 1, o) => (n + 1) :: o.shares parts

end Outline

/-- The sub-reads of a request that has good and bad bytes. -/
def subReads (regions : List (Nat × Nat)) (address length : Nat) : List (Nat × Nat) :=
  match scanRegions address length regions none [] with
  | some (some last, reads) =>
    if last.2 < address + length then reads ++ [(last.2, address + length)] else reads
  | _ => []

/-- Every sub-read is served whole. -/
def Whole (parts : List (Nat × Nat)) (shares : List Nat) : Prop :=
  shares = parts.map fun part => part.2 - part.1

instance (parts : List (Nat × Nat)) : DecidablePred (Whole parts) :=
  fun _ => inferInstanceAs (Decidable (_ = _))

/-- A string has the byte of memory at every good address and zero at every bad one; there is
no other result but `None`. -/
def Unshifted (mem : Nat → UInt8) (regions : List (Nat × Nat)) (address : Nat)
    (result : Except PyError (Option (List UInt8))) : Prop :=
  result = .ok none ∨ ∃ data, result = .ok (some data) ∧
    ∀ i b, data[i]? = some b → b = if Bad regions (address + i) then 0 else mem (address + i)

/-! ## The outline tells how many bytes come back -/

/-- `o` is the outline of `m`. -/
structure Outlines (mem : Nat → UInt8) (o : Outline) (m : MemorySensor) : Prop where
  timeout : m.cacheTimeout = o.cacheTimeout
  ticks : m.ticks = o.ticks
  cache : ∀ k, m.cache k =
    (o.dates k).map fun time => (window mem (k * cacheChunk) cacheChunk, time)

section Simulation
variable {p : Pattern} {mem : Nat → UInt8} {o : Outline} {m : MemorySensor}

theorem outlines_sensor (o : Outline) (mem : Nat → UInt8) : Outlines mem o (o.sensor mem) :=
  ⟨rfl, rfl, fun _ => rfl⟩

theorem Outlines.fetchChunk (h : Outlines mem o m) (now : Int) (k : Nat) :
    Outlines mem (o.fetch p now k).2 (fetchChunk (p.world mem) now m k).2 ∧
      (fetchChunk (p.world mem) now m k).1 =
        if (o.fetch p now k).1 then some (window mem (k * cacheChunk) cacheChunk) else none := by
  have hanswer : (p.world mem).sensor m.ticks (k * cacheChunk) cacheChunk =
      if p.fails o.ticks (k * cacheChunk) cacheChunk then none
      else some (window mem (k * cacheChunk) cacheChunk) := by
    rw [h.ticks]
    rfl
  unfold Sensor.fetchChunk Outline.fetch readFromSensor
  dsimp only
  rw [hanswer]
  cases p.fails o.ticks (k * cacheChunk) cacheChunk with
  | true => exact ⟨⟨h.timeout, congrArg (· + 1) h.ticks, h.cache⟩, rfl⟩
  | false =>
    refine ⟨⟨h.timeout, congrArg (· + 1) h.ticks, fun j => ?_⟩, rfl⟩
    show (if j = k then some (window mem (k * cacheChunk) cacheChunk, now) else m.cache j) =
      (if j = k then some now else o.dates j).map _
    split
    · rename_i hj
      rw [hj]
      rfl
    · exact h.cache j

theorem Outlines.chunkEntry (h : Outlines mem o m) (now : Int) (k : Nat) :
    Outlines mem (o.chunk p now k).2 (chunkEntry (p.world mem) now m k).2 ∧
      (chunkEntry (p.world mem) now m k).1 =
        if (o.chunk p now k).1 then some (window mem (k * cacheChunk) cacheChunk) else none := by
  unfold Sensor.chunkEntry Outline.chunk
  rw [h.cache k, h.timeout]
  cases o.dates k with
  | none => exact h.fetchChunk now k
  | some time =>
    dsimp only [Option.map_some]
    split
    · exact h.fetchChunk now k
    · exact ⟨h, rfl⟩

/-- The bytes of a turn and those of the turns after it. -/
theorem Outline.chunks_le (now : Int) (fuel : Nat) (o : Outline) (address length : Nat) :
    (Outline.chunks p now fuel o address length).1 ≤ length := by
  induction fuel generalizing o address length with
  | zero => exact Nat.zero_le _
  | succ fuel ih =>
    unfold Outline.chunks
    split
    · exact Nat.zero_le _
    · split
      · exact Nat.zero_le _
      · rename_i o' _
        have := ih o' (address + inChunk address) (length - inChunk address)
        dsimp only
        omega

theorem Outlines.readChunks (h : Outlines mem o m) (now : Int) (fuel address length : Nat)
    (datas : List UInt8) :
    Outlines mem (Outline.chunks p now fuel o address length).2
        (readChunks (p.world mem) now fuel m address length datas).2 ∧
      (readChunks (p.world mem) now fuel m address length datas).1 =
        datas ++ window mem address (Outline.chunks p now fuel o address length).1 := by
  induction fuel generalizing o m address length datas with
  | zero => exact ⟨h, (List.append_nil _).symm⟩
  | succ fuel ih =>
    by_cases h0 : length = 0
    · subst h0
      rw [readChunks_empty]
      exact ⟨h, (List.append_nil _).symm⟩
    obtain ⟨hnext, hentry⟩ := h.chunkEntry (p := p) now (address / cacheChunk)
    unfold Outline.chunks
    rw [if_neg h0]
    generalize o.chunk p now (address / cacheChunk) = found at hnext hentry
    obtain ⟨ok, o'⟩ := found
    cases ok with
    | false =>
      rw [readChunks_failed h0 (Prod.ext hentry rfl)]
      exact ⟨hnext, (List.append_nil _).symm⟩
    | true =>
      rw [readChunks_turn h0 (Prod.ext hentry rfl)]
      obtain ⟨hlast, heq⟩ := ih hnext (address + inChunk address) (length - inChunk address)
        (datas ++ window mem address (min (inChunk address) length))
      refine ⟨hlast, ?_⟩
      rw [heq, List.append_assoc]
      have hle := Outline.chunks_le (p := p) now fuel o' (address + inChunk address)
        (length - inChunk address)
      dsimp only
      generalize (Outline.chunks p now fuel o' (address + inChunk address)
        (length - inChunk address)).1 = served at hle
      rw [window_add]
      by_cases hmore : length ≤ inChunk address
      · obtain rfl : served = 0 := by omega
        rfl
      · rw [Nat.min_eq_left (by omega)]

theorem Outlines.readCached (h : Outlines mem o m) (part : Nat × Nat) (hle : part.1 ≤ part.2) :
    Outlines mem (o.share p part).2 (readCached (p.world mem) m part.1 (part.2 - part.1)).2 ∧
      (readCached (p.world mem) m part.1 (part.2 - part.1)).1 =
        window mem part.1 (o.share p part).1 := by
  have hlen : ((part.2 : Int) - part.1).toNat = part.2 - part.1 := by omega
  have hiff : m.cacheTimeout ≤ 0 ↔ o.cacheTimeout ≤ 0 := by rw [h.timeout]
  unfold Sensor.readCached Outline.share
  by_cases h0 : o.cacheTimeout ≤ 0
  · rw [if_pos (hiff.mpr h0), if_pos h0]
    dsimp only [readFromSensor, Pattern.world]
    rw [h.ticks, hlen]
    refine ⟨⟨h.timeout, rfl, h.cache⟩, ?_⟩
    cases p.fails o.ticks part.1 ((part.2 : Int) - part.1) <;> rfl
  · rw [if_neg (hiff.not.mpr h0), if_neg h0, hlen]
    dsimp only
    rw [h.ticks]
    have h' : Outlines mem { o with ticks := o.ticks + 1 } { m with ticks := o.ticks + 1 } :=
      ⟨h.timeout, rfl, h.cache⟩
    exact h'.readChunks (p := p) (p.clock o.ticks) (part.2 - part.1) part.1 (part.2 - part.1) []

end Simulation

/-! ## The sub-reads of a request -/

/-- The bytes of the sub-reads with zeros for what lies between them, each of the given number
of bytes. -/
def assembled (mem : Nat → UInt8) : Nat → List (Nat × Nat) → List Nat → List UInt8
  | start, part :: parts, share :: shares =>
    zeros (part.1 - start) ++ window mem part.1 share ++ assembled mem part.2 parts shares
  | _, _, _ => []

section SubReads
variable {p : Pattern} {mem : Nat → UInt8} {o : Outline} {m : MemorySensor}
  {regions : List (Nat × Nat)} {start stop : Nat} {parts : List (Nat × Nat)}

theorem Outline.share_le (o : Outline) (part : Nat × Nat) :
    (o.share p part).1 ≤ part.2 - part.1 := by
  unfold Outline.share
  split
  · dsimp only
    split <;> omega
  · exact Outline.chunks_le _ _ _ _ _

theorem Outlines.issueReads (h : Outlines mem o m) (hparts : ∀ part ∈ parts, part.1 ≤ part.2)
    (x start : Nat) (data : List UInt8) :
    (0 ∈ o.shares p parts ∧
        (issueReads (p.world mem) m (some (x, start)) parts data).1 = none) ∨
      0 ∉ o.shares p parts ∧
        (issueReads (p.world mem) m (some (x, start)) parts data).1 =
          some (data ++ assembled mem start parts (o.shares p parts)) := by
  induction parts generalizing o m x start data with
  | nil => exact .inr ⟨List.not_mem_nil, by simp [Sensor.issueReads, assembled]⟩
  | cons part parts ih =>
    obtain ⟨hnext, hread⟩ := h.readCached (p := p) part (hparts part List.mem_cons_self)
    unfold Outline.shares Sensor.issueReads
    dsimp only
    generalize Sensor.readCached (p.world mem) m part.1 (part.2 - part.1) = answer at hnext hread
    obtain ⟨bytes, m'⟩ := answer
    generalize o.share p part = found at hnext hread
    obtain ⟨share, o'⟩ := found
    dsimp only at hread
    subst hread
    cases share with
    | zero => exact .inl ⟨List.mem_singleton_self _, rfl⟩
    | succ n =>
      rw [window_succ]
      dsimp only
      rw [← window_succ]
      rcases ih hnext (fun part' h' => hparts part' (List.mem_cons_of_mem _ h')) part.1 part.2
        (data ++ zeros (part.1 - start) ++ window mem part.1 (n + 1)) with ⟨h0, hnone⟩ | ⟨h0, hsome⟩
      · exact .inl ⟨List.mem_cons_of_mem _ h0, hnone⟩
      · refine .inr ⟨by simp [h0], ?_⟩
        rw [hsome, assembled]
        simp only [List.append_assoc]

/-- Sub-reads served whole give memory with the bad bytes blanked. -/
theorem assembled_whole (ht : Tiles regions start parts stop) :
    assembled mem start parts (parts.map fun part => part.2 - part.1) =
      window (masked mem regions) start (stop - start) := by
  induction ht with
  | nil => simp [assembled]
  | cons hstart nonempty blank clear rest ih =>
    rw [List.map_cons, assembled, ih, List.append_assoc]
    exact window_tile mem hstart nonempty blank clear rest.le

/-- Memory that holds a one at one address. -/
def only (x y : Nat) : UInt8 := if y = x then 1 else 0

theorem window_only {x a n : Nat} (h : x < a ∨ a + n ≤ x) : window (only x) a n = zeros n := by
  refine window_const 0 fun y hy hy' => if_neg ?_
  omega

theorem mem_zeros {n : Nat} {b : UInt8} (h : b ∈ zeros n) : b = 0 := (List.mem_replicate.mp h).2

/-- Sub-reads after an address do not bring it. -/
theorem assembled_after {x : Nat} (ht : Tiles regions start parts stop) (hx : x < start)
    (shares : List Nat) : ∀ b ∈ assembled (only x) start parts shares, b = 0 := by
  induction ht generalizing shares with
  | nil => simp [assembled]
  | cons hstart nonempty blank clear rest ih =>
    cases shares with
    | nil => simp [assembled]
    | cons share shares =>
      intro b hb
      rw [assembled, window_only (.inl (by omega))] at hb
      rcases List.mem_append.mp hb with hb | hb
      · rcases List.mem_append.mp hb with hb | hb <;> exact mem_zeros hb
      · exact ih (by omega) shares b hb

/-- If no sub-read brings nothing and not all are served whole, some good byte is never
brought. -/
theorem exists_unserved (ht : Tiles regions start parts stop) (h0 : 0 ∉ o.shares p parts)
    (hcut : ¬ Whole parts (o.shares p parts)) :
    ∃ x, start ≤ x ∧ x < stop ∧ ¬ Bad regions x ∧
      ∀ b ∈ assembled (only x) start parts (o.shares p parts), b = 0 := by
  induction ht generalizing o with
  | nil => exact absurd rfl hcut
  | @cons start stop part parts hstart nonempty blank clear rest ih =>
    have hle := Outline.share_le (p := p) o part
    unfold Outline.shares at h0 hcut ⊢
    generalize o.share p part = found at hle h0 hcut
    obtain ⟨share, o'⟩ := found
    cases share with
    | zero => exact absurd (List.mem_singleton_self _) h0
    | succ n =>
      dsimp only at hle h0 hcut ⊢
      have hstop := rest.le
      by_cases hfull : n + 1 = part.2 - part.1
      · have hrest : ¬ Whole parts (o'.shares p parts) := by
          intro hwhole
          apply hcut
          unfold Whole at hwhole ⊢
          rw [List.map_cons, ← hwhole, hfull]
        obtain ⟨x, hx, hx', hgood, hbytes⟩ := ih (fun h => h0 (List.mem_cons_of_mem _ h)) hrest
        refine ⟨x, by omega, hx', hgood, ?_⟩
        intro b hb
        rw [assembled, window_only (.inr (by omega))] at hb
        rcases List.mem_append.mp hb with hb | hb
        · rcases List.mem_append.mp hb with hb | hb <;> exact mem_zeros hb
        · exact hbytes b hb
      · refine ⟨part.1 + (n + 1), by omega, by omega, clear _ (by omega) (by omega), ?_⟩
        intro b hb
        rw [assembled, window_only (.inr (Nat.le_refl _))] at hb
        rcases List.mem_append.mp hb with hb | hb
        · rcases List.mem_append.mp hb with hb | hb <;> exact mem_zeros hb
        · exact assembled_after rest (by omega) _ b hb

end SubReads

/-! ## The request -/

section Request
variable {p : Pattern} {mem : Nat → UInt8} {o : Outline} {address length : Nat}

theorem unshifted_window {regions : List (Nat × Nat)} {n : Nat}
    (hclear : Clear regions address (address + n)) :
    Unshifted mem regions address (.ok (some (window mem address n))) := by
  refine .inr ⟨_, rfl, fun i b hb => ?_⟩
  have hi : i < n := by
    have := (List.getElem?_eq_some_iff.mp hb).1
    rwa [length_window] at this
  rw [getElem?_window hi] at hb
  rw [if_neg (hclear _ (by omega) (by omega))]
  exact (Option.some.inj hb).symm

theorem unshifted_masked {regions : List (Nat × Nat)} {n : Nat} :
    Unshifted mem regions address (.ok (some (window (masked mem regions) address n))) := by
  refine .inr ⟨_, rfl, fun i b hb => ?_⟩
  have hi : i < n := by
    have := (List.getElem?_eq_some_iff.mp hb).1
    rwa [length_window] at this
  rw [getElem?_window hi] at hb
  exact (Option.some.inj hb).symm

theorem read_uncut {w : World} {m : MemorySensor} {reads : List (Nat × Nat)}
    (hscan : scanRegions address length m.badMemRegions none [] = some (none, reads)) :
    (read w m address length).1 = .ok (some (readCached w m address length).1) := by
  unfold Sensor.read
  rw [hscan]

theorem read_cut {w : World} {m : MemorySensor} {last first : Nat × Nat}
    {reads rest : List (Nat × Nat)}
    (hscan : scanRegions address length m.badMemRegions none [] = some (some last, reads))
    (hreads : (if last.2 < address + length then reads ++ [(last.2, address + length)]
      else reads) = first :: rest) :
    (read w m address length).1 =
      .ok ((issueReads w m (some (0, address)) (first :: rest) []).1.map
        fun data => data ++ zeros (length - data.length)) := by
  unfold Sensor.read
  rw [hscan]
  dsimp only
  rw [hreads]
  dsimp only
  rw [issueReads_first w m address 0]
  generalize issueReads w m (some (0, address)) (first :: rest) [] = answer
  obtain ⟨data, t⟩ := answer
  cases data <;> rfl

/-- A request is either not cut, and then no pattern of failures shifts it, or the result is
what its sub-reads bring, with zeros at the end. -/
theorem read_subReads (p : Pattern) (o : Outline) (hsep : Separated o.badMemRegions)
    (address length : Nat) :
    (subReads o.badMemRegions address length = [] ∧
        ∀ mem, Unshifted mem o.badMemRegions address
          (read (p.world mem) (o.sensor mem) address length).1) ∨
      ∃ stop, Tiles o.badMemRegions address (subReads o.badMemRegions address length) stop ∧
        stop ≤ address + length ∧ Blank o.badMemRegions stop (address + length) ∧
        ∀ mem, (read (p.world mem) (o.sensor mem) address length).1 =
          .ok ((issueReads (p.world mem) (o.sensor mem) (some (0, address))
            (subReads o.badMemRegions address length) []).1.map
            fun data => data ++ zeros (length - data.length)) := by
  have hcut := scanRegions_all hsep address length
  cases hscan : scanRegions address length o.badMemRegions none [] with
  | none =>
    rw [hscan] at hcut
    refine .inl ⟨by simp only [subReads, hscan], fun mem => ?_⟩
    have hread : (read (p.world mem) (o.sensor mem) address length).1 =
        .ok (some (window (masked mem o.badMemRegions) address length)) := by
      rw [window_blank hcut]
      simp only [Sensor.read, Outline.sensor, hscan]
    rw [hread]
    exact unshifted_masked
  | some result =>
    rw [hscan] at hcut
    obtain ⟨last, reads⟩ := result
    cases last with
    | none =>
      refine .inl ⟨by simp only [subReads, hscan], fun mem => ?_⟩
      obtain ⟨-, hbytes⟩ := (outlines_sensor o mem).readCached (p := p)
        (address, address + length) (Nat.le_add_right _ _)
      have hle := Outline.share_le (p := p) o (address, address + length)
      have hcast : ((address + length : Nat) : Int) - address = length := by omega
      dsimp only at hbytes hle
      rw [hcast] at hbytes
      rw [read_uncut hscan, hbytes]
      exact unshifted_window (hcut.2.mono (Nat.le_refl _) (by omega))
    | some last =>
      obtain ⟨first, rest, stop, hreads, htiles, hstop, hblank⟩ := hcut.final hsep
      have hsub : subReads o.badMemRegions address length = first :: rest := by
        simp only [subReads, hscan]
        exact hreads
      rw [hsub]
      exact .inr ⟨stop, htiles, hstop, hblank, fun mem => read_cut hscan hreads⟩

/-- A sub-read that is cut short shows, if no other one brings nothing: memory with a one at a
byte that is never brought reads as zeros. -/
theorem shifted_of_cut {x : Nat} {data : List UInt8} (hx : address ≤ x) (hx' : x < address + length)
    (hgood : ¬ Bad o.badMemRegions x) (hbytes : ∀ b ∈ data, b = 0) :
    ¬ Unshifted (only x) o.badMemRegions address
      (.ok (some (data ++ zeros (length - data.length)))) := by
  rintro (hnone | ⟨all, hall, hbyte⟩)
  · cases hnone
  · cases hall
    have hlen : x - address < (data ++ zeros (length - data.length)).length := by
      rw [List.length_append, zeros, List.length_replicate]
      omega
    have hzero : (data ++ zeros (length - data.length)).get ⟨x - address, hlen⟩ = 0 := by
      rcases List.mem_append.mp (List.get_mem _ ⟨x - address, hlen⟩) with h | h
      · exact hbytes _ h
      · exact mem_zeros h
    have hone := hbyte (x - address) _ (List.getElem?_eq_getElem hlen)
    rw [Nat.add_sub_cancel' hx, if_neg hgood] at hone
    rw [List.get_eq_getElem, hone, only, if_pos rfl] at hzero
    exact absurd hzero (by decide)

/-- **A request comes back with every byte in its place, whatever memory holds, exactly when
each of its sub-reads is served whole or one of them brings nothing.** A request that is not
cut by a bad region has no sub-reads and always does. -/
theorem unshifted_iff (p : Pattern) (o : Outline) (hsep : Separated o.badMemRegions)
    (address length : Nat) :
    (∀ mem, Unshifted mem o.badMemRegions address
        (read (p.world mem) (o.sensor mem) address length).1) ↔
      Whole (subReads o.badMemRegions address length)
          (o.shares p (subReads o.badMemRegions address length)) ∨
        0 ∈ o.shares p (subReads o.badMemRegions address length) := by
  rcases read_subReads p o hsep address length with
    ⟨hnil, hall⟩ | ⟨stop, htiles, hstop, hblank, hread⟩
  · rw [hnil]
    exact iff_of_true hall (.inl rfl)
  generalize subReads o.badMemRegions address length = parts at htiles hread
  have hparts : ∀ part ∈ parts, part.1 ≤ part.2 :=
    fun part h => Nat.le_of_lt (htiles.mem part h).2.1
  have hissue := fun mem => (outlines_sensor o mem).issueReads (p := p) hparts 0 address []
  constructor
  · intro hall
    by_contra hno
    obtain ⟨hcut, h0⟩ := not_or.mp hno
    obtain ⟨x, hx, hx', hgood, hbytes⟩ := exists_unserved htiles h0 hcut
    rcases hissue (only x) with ⟨hzero, -⟩ | ⟨-, hsome⟩
    · exact h0 hzero
    · have hmem := hall (only x)
      rw [hread, hsome, List.nil_append, Option.map_some] at hmem
      exact shifted_of_cut hx (by omega) hgood hbytes hmem
  · rintro hgood mem
    rw [hread]
    rcases hissue mem with ⟨-, hnone⟩ | ⟨h0, hsome⟩
    · rw [hnone]
      exact .inl rfl
    · have hwhole := hgood.resolve_right h0
      rw [hsome, hwhole, List.nil_append, assembled_whole htiles, Option.map_some, length_window,
        window_pad mem htiles.le hstop hblank]
      exact unshifted_masked

/-- A region after the first chunk, and a cache. -/
def holeAfterChunk : Outline where
  badMemRegions := [(7690, 7700)]
  cacheTimeout := 1

theorem separated_holeAfterChunk : Separated holeAfterChunk.badMemRegions :=
  ⟨List.pairwise_singleton _ _, by decide⟩

/-- Every request for the second chunk fails: the second sub-read of a request across the
region brings nothing, and so does the request. -/
theorem unshifted_without_second_chunk :
    Separated holeAfterChunk.badMemRegions ∧
      ∀ mem, Unshifted mem [(7690, 7700)] 7670
        (read (Pattern.world ⟨fun t => t, fun _ address _ => address == 7680⟩ mem)
          (holeAfterChunk.sensor mem) 7670 100).1 :=
  ⟨separated_holeAfterChunk,
    (unshifted_iff ⟨fun t => t, fun _ address _ => address == 7680⟩ holeAfterChunk
      separated_holeAfterChunk 7670 100).mpr (.inr (by decide))⟩

/-- Only the first request for the second chunk fails. -/
def failsOnce : Pattern where
  clock t := t
  fails t _ _ := t == 2

/-- The first sub-read brings ten of its twenty bytes, and the byte of address 7700 stands where
the bad byte of address 7690 belongs. -/
theorem cut_subRead_shifts :
    (∃ data, (read (failsOnce.world UInt8.ofNat) (holeAfterChunk.sensor UInt8.ofNat)
        7670 100).1 = .ok (some data) ∧ data[20]? = some (UInt8.ofNat 7700)) ∧
      ¬ Unshifted UInt8.ofNat [(7690, 7700)] 7670
        (read (failsOnce.world UInt8.ofNat) (holeAfterChunk.sensor UInt8.ofNat) 7670 100).1 := by
  have hscan : scanRegions 7670 100 (holeAfterChunk.sensor UInt8.ofNat).badMemRegions none [] =
      some (some (7690, 7700), [(7670, 7690)]) := by decide
  have hread : (read (failsOnce.world UInt8.ofNat) (holeAfterChunk.sensor UInt8.ofNat)
      7670 100).1 =
      .ok ((issueReads (failsOnce.world UInt8.ofNat) (holeAfterChunk.sensor UInt8.ofNat)
        (some (0, 7670)) [(7670, 7690), (7700, 7770)] []).1.map
        fun data => data ++ zeros (100 - data.length)) := read_cut hscan rfl
  have hparts : ∀ part ∈ [(7670, 7690), (7700, 7770)], part.1 ≤ part.2 := by decide
  have hissue := (outlines_sensor holeAfterChunk UInt8.ofNat).issueReads (p := failsOnce)
    hparts 0 7670 []
  have hshares : holeAfterChunk.shares failsOnce [(7670, 7690), (7700, 7770)] = [10, 70] := by
    decide
  rw [hshares] at hissue
  rw [(hissue.resolve_left (by decide)).2] at hread
  rw [hread]
  refine ⟨⟨_, rfl, by decide⟩, ?_⟩
  rintro (hnone | ⟨data, hdata, hbyte⟩)
  · cases hnone
  · cases hdata
    exact absurd (hbyte 20 (UInt8.ofNat 7700) (by decide)) (by decide)

end Request

end LoPhi.Memory.Shifts
