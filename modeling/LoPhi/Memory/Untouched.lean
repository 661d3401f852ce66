import LoPhi.Memory.Holes

/-! # What a read asks the sensor for

`read` cuts the bad regions out of a request, and then `_read_cached` rounds what
is left to whole chunks. So with the cache enabled a bad region is asked for when
it shares a chunk with a good byte of the request. The sensor may answer as it
likes, and the cache may hold anything. -/

namespace LoPhi.Memory.Untouched
open LoPhi.Lib.Python LoPhi.Lib.Window LoPhi.Memory.Sensor LoPhi.Memory.Cached LoPhi.Memory.Holes

/-- The settings stay and every new request has the property. -/
structure Asks (P : Request → Prop) (m m' : MemorySensor) : Prop where
  timeout : m'.cacheTimeout = m.cacheTimeout
  requests : ∃ made, m'.requests = m.requests ++ made ∧ ∀ r ∈ made, P r

section Asks
variable {P Q : Request → Prop} {m m' m'' : MemorySensor} {w : World}

theorem Asks.refl : Asks P m m := ⟨rfl, [], by simp, by simp⟩

theorem Asks.trans (h : Asks P m m') (h' : Asks P m' m'') : Asks P m m'' := by
  obtain ⟨ht, made, hreq, hP⟩ := h
  obtain ⟨ht', made', hreq', hP'⟩ := h'
  refine ⟨ht'.trans ht, made ++ made', by rw [hreq', hreq, List.append_assoc], fun r hr => ?_⟩
  cases List.mem_append.mp hr with
  | inl hr => exact hP r hr
  | inr hr => exact hP' r hr

theorem Asks.mono (h : Asks P m m') (hPQ : ∀ r, P r → Q r) : Asks Q m m' := by
  obtain ⟨ht, made, hreq, hP⟩ := h
  exact ⟨ht, made, hreq, fun r hr => hPQ r (hP r hr)⟩

theorem readFromSensor_asks (address : Nat) (length : Int) :
    Asks (fun r => r.address = address ∧ r.length = length) m
      (readFromSensor w m address length).2 := by
  refine ⟨rfl, _, rfl, fun r hr => ?_⟩
  rw [List.mem_singleton.mp hr]
  exact ⟨rfl, rfl⟩

theorem chunkEntry_asks (now : Int) (k : Nat) :
    Asks (fun r => r.address = k * cacheChunk ∧ r.length = cacheChunk) m
      (chunkEntry w now m k).2 := by
  have hfetch : Asks (fun r => r.address = k * cacheChunk ∧ r.length = cacheChunk) m
      (fetchChunk w now m k).2 := by
    have hread := readFromSensor_asks (m := m) (w := w) (k * cacheChunk) cacheChunk
    unfold fetchChunk
    generalize readFromSensor w m (k * cacheChunk) cacheChunk = answer at hread
    obtain ⟨entry, t⟩ := answer
    cases entry with
    | none => exact hread
    | some entry => exact ⟨hread.timeout, hread.requests⟩
  unfold chunkEntry
  split
  · exact hfetch
  · split
    · exact hfetch
    · exact Asks.refl

theorem readChunks_asks (now : Int) (fuel address length : Nat) (datas : List UInt8) :
    Asks (ForChunk address length) m (readChunks w now fuel m address length datas).2 := by
  induction fuel generalizing m address length datas with
  | zero => exact Asks.refl
  | succ fuel ih =>
    unfold readChunks
    split
    · exact Asks.refl
    · rename_i h0
      have hentry : Asks (ForChunk address length) m
          (chunkEntry w now m (address / cacheChunk)).2 :=
        (chunkEntry_asks now _).mono fun r hr => ⟨address, Nat.le_refl _, by omega, hr⟩
      dsimp only
      generalize chunkEntry w now m (address / cacheChunk) = answer at hentry
      obtain ⟨entry, t⟩ := answer
      cases entry with
      | none => exact hentry
      | some entry =>
        exact hentry.trans ((ih _ _ _).mono fun r hr => hr.of_rest)

theorem readCached_asks (part : Nat × Nat) :
    Asks (Wants m.cacheTimeout part) m (readCached w m part.1 (part.2 - part.1)).2 := by
  unfold readCached
  split
  · rename_i h0
    exact (readFromSensor_asks _ _).mono fun r hr => .inl ⟨h0, hr⟩
  · rename_i h0
    have hlen : ((part.2 : Int) - part.1).toNat = part.2 - part.1 := by omega
    rw [hlen]
    obtain ⟨ht, hreq⟩ := readChunks_asks (m := { m with ticks := m.ticks + 1 }) (w := w)
      (w.clock m.ticks) (part.2 - part.1) part.1 (part.2 - part.1) []
    have hasks : Asks (ForChunk part.1 (part.2 - part.1)) m
        (readChunks w (w.clock m.ticks) (part.2 - part.1) { m with ticks := m.ticks + 1 }
          part.1 (part.2 - part.1) []).2 := ⟨ht, hreq⟩
    exact hasks.mono fun r hr => .inr ⟨by omega, hr⟩

theorem issueReads_asks (lastRead : Option (Nat × Nat)) (reads : List (Nat × Nat))
    (data : List UInt8) :
    Asks (fun r => ∃ part ∈ reads, Wants m.cacheTimeout part r) m
      (issueReads w m lastRead reads data).2 := by
  induction reads generalizing m lastRead data with
  | nil => exact Asks.refl
  | cons part reads ih =>
    have hpart : Asks (fun r => ∃ part' ∈ part :: reads, Wants m.cacheTimeout part' r) m
        (readCached w m part.1 (part.2 - part.1)).2 :=
      (readCached_asks part).mono fun r hr => ⟨part, by simp, hr⟩
    unfold issueReads
    dsimp only
    generalize readCached w m part.1 (part.2 - part.1) = answer at hpart
    obtain ⟨bytes, t⟩ := answer
    cases bytes with
    | nil => exact hpart
    | cons b bytes =>
      refine hpart.trans ((ih _ _).mono fun r hr => ?_)
      obtain ⟨part', hmem, hwants⟩ := hr
      rw [hpart.timeout] at hwants
      exact ⟨part', List.mem_cons_of_mem _ hmem, hwants⟩

end Asks

/-- The request is made for a part of `[address, address + length)` without a bad byte. -/
def ForPart (m : MemorySensor) (address length : Nat) (r : Request) : Prop :=
  ∃ part : Nat × Nat, address ≤ part.1 ∧ part.2 ≤ address + length ∧
    Clear m.badMemRegions part.1 part.2 ∧ Wants m.cacheTimeout part r

theorem read_asks {m : MemorySensor} (w : World) (hsep : Separated m.badMemRegions)
    (address length : Nat) :
    Asks (ForPart m address length) m (read w m address length).2 := by
  have hcut := scanRegions_all hsep address length
  unfold Sensor.read
  generalize scanRegions address length m.badMemRegions none [] = result at hcut
  cases result with
  | none => exact Asks.refl
  | some result =>
    obtain ⟨last, reads⟩ := result
    cases last with
    | none =>
      have hasks := readCached_asks (m := m) (w := w) (address, address + length)
      have hcast : ((address + length : Nat) : Int) - address = length := by omega
      dsimp only at hasks
      rw [hcast] at hasks
      exact hasks.mono fun r hr =>
        ⟨(address, address + length), Nat.le_refl _, Nat.le_refl _, hcut.2, hr⟩
    | some last =>
      obtain ⟨first, rest, q, hreads, htiles, hq, -⟩ := hcut.final hsep
      dsimp only
      rw [hreads]
      dsimp only
      have hasks : Asks (ForPart m address length) m
          (issueReads w m none (first :: rest) (zeros (first.1 - address))).2 := by
        refine (issueReads_asks _ _ _).mono fun r hr => ?_
        obtain ⟨part, hmem, hwants⟩ := hr
        obtain ⟨h1, h2, h3, h4⟩ := htiles.mem part hmem
        exact ⟨part, h1, by omega, h4, hwants⟩
      generalize issueReads w m none (first :: rest) (zeros (first.1 - address)) = answer at hasks
      obtain ⟨data, t⟩ := answer
      cases data <;> exact hasks

/-! ## A cache that has expired

When the entries of the chunks in question have expired and the sensor answers, each
of these chunks is asked for. -/

/-- The time is always `now`, and memory is all zeros. -/
def expiredWorld (now : Int) : World where
  clock _ := now
  sensor _ _ length := some (zeros length.toNat)

/-- The request for a chunk. -/
def chunkRequest (k : Nat) : Request := ⟨k * cacheChunk, cacheChunk, true⟩

/-- After the requests `before` and `made`, each of the chunks `0 … bound` is not cached,
its entry has expired, or its request is one of those `made`. -/
structure Expired (now : Int) (bound : Nat) (before : List Request) (m : MemorySensor)
    (made : List Request) : Prop where
  timeout : 0 < m.cacheTimeout
  requests : m.requests = before ++ made
  chunks : ∀ k ≤ bound,
    (∀ entry time, m.cache k = some (entry, time) → time ≤ now - m.cacheTimeout) ∨
      m.cache k = some (zeros cacheChunk, now) ∧ chunkRequest k ∈ made

section Expired
variable {now : Int} {bound : Nat} {before made : List Request} {m : MemorySensor}

theorem fetchChunk_expired (h : Expired now bound before m made) (k : Nat) :
    (fetchChunk (expiredWorld now) now m k).1 = some (zeros cacheChunk) ∧
      Expired now bound before (fetchChunk (expiredWorld now) now m k).2
        (made ++ [chunkRequest k]) := by
  refine ⟨rfl, h.timeout, ?_, fun j hj => ?_⟩
  · rw [← List.append_assoc, ← h.requests]
    rfl
  · by_cases hjk : j = k
    · right
      refine ⟨if_pos hjk, ?_⟩
      rw [hjk]
      simp
    · have hcache : (fetchChunk (expiredWorld now) now m k).2.cache j = m.cache j := if_neg hjk
      rw [hcache]
      cases h.chunks j hj with
      | inl hold => exact .inl hold
      | inr hnew => exact .inr ⟨hnew.1, List.mem_append_left _ hnew.2⟩

theorem chunkEntry_expired (h : Expired now bound before m made) {k : Nat} (hk : k ≤ bound) :
    (chunkEntry (expiredWorld now) now m k).1 = some (zeros cacheChunk) ∧
      ∃ made', Expired now bound before (chunkEntry (expiredWorld now) now m k).2 made' ∧
        made ⊆ made' ∧ chunkRequest k ∈ made' := by
  obtain ⟨hentry, hfetch⟩ := fetchChunk_expired h k
  have hsub : made ⊆ made ++ [chunkRequest k] := List.subset_append_left _ _
  have hmem : chunkRequest k ∈ made ++ [chunkRequest k] := by simp
  unfold chunkEntry
  cases h.chunks k hk with
  | inl hold =>
    split
    · exact ⟨hentry, _, hfetch, hsub, hmem⟩
    · rename_i entry time hcached
      rw [if_pos (hold entry time hcached)]
      exact ⟨hentry, _, hfetch, hsub, hmem⟩
  | inr hnew =>
    have := h.timeout
    rw [hnew.1]
    dsimp only
    rw [if_neg (by omega)]
    exact ⟨rfl, made, h, List.Subset.refl _, hnew.2⟩

theorem zeros_eq_window (address length : Nat) :
    zeros length = window (fun _ => (0 : UInt8)) address length :=
  (window_const 0 fun _ _ _ => rfl).symm

theorem readChunks_expired (h : Expired now bound before m made) {fuel : Nat}
    (address length : Nat) (hfuel : length ≤ fuel)
    (hbound : ∀ x, address ≤ x → x < address + length → x ≤ bound) (datas : List UInt8) :
    ∃ made', Expired now bound before
        (readChunks (expiredWorld now) now fuel m address length datas).2 made' ∧
      made ⊆ made' ∧
      (readChunks (expiredWorld now) now fuel m address length datas).1 =
        datas ++ zeros length ∧
      ∀ x, address ≤ x → x < address + length → chunkRequest (x / cacheChunk) ∈ made' := by
  induction fuel generalizing m made address length datas with
  | zero =>
    obtain rfl : length = 0 := by omega
    refine ⟨made, h, List.Subset.refl _, (List.append_nil _).symm, fun x hx hx' => ?_⟩
    omega
  | succ fuel ih =>
    by_cases h0 : length = 0
    · subst h0
      rw [readChunks_empty]
      refine ⟨made, h, List.Subset.refl _, (List.append_nil _).symm, fun x hx hx' => ?_⟩
      omega
    have hk : address / cacheChunk ≤ bound :=
      Nat.le_trans (Nat.div_le_self _ _) (hbound address (Nat.le_refl _) (by omega))
    obtain ⟨hzeros, made', h', hsub, hmem⟩ := chunkEntry_expired h hk
    cases hentry : chunkEntry (expiredWorld now) now m (address / cacheChunk) with
    | mk entry t =>
      rw [hentry] at hzeros h'
      dsimp only at hzeros
      rw [hzeros, zeros_eq_window (address / cacheChunk * cacheChunk)] at hentry
      rw [readChunks_turn h0 hentry]
      have hpos := inChunk_pos address
      obtain ⟨made'', h'', hsub', hdata, hall⟩ := ih h' (address + inChunk address)
        (length - inChunk address) (by omega) (fun x hx hx' => hbound x (by omega) (by omega))
        (datas ++ window (fun _ => 0) address (min (inChunk address) length))
      refine ⟨made'', h'', fun r hr => hsub' (hsub hr), ?_, fun x hx hx' => ?_⟩
      · rw [hdata, List.append_assoc, zeros_eq_window (address + inChunk address), ← window_split,
          ← zeros_eq_window]
      · -- A byte of the chunk of this turn, or of a later one.
        by_cases hsame : x / cacheChunk = address / cacheChunk
        · rw [hsame]
          exact hsub' hmem
        · refine hall x ?_ (by omega)
          unfold inChunk cacheChunk at *
          omega

theorem readCached_expired (h : Expired now bound before m made) (part : Nat × Nat)
    (hbound : part.2 ≤ bound) :
    ∃ made', Expired now bound before
        (readCached (expiredWorld now) m part.1 (part.2 - part.1)).2 made' ∧
      made ⊆ made' ∧
      (readCached (expiredWorld now) m part.1 (part.2 - part.1)).1 = zeros (part.2 - part.1) ∧
      ∀ x, part.1 ≤ x → x < part.2 → chunkRequest (x / cacheChunk) ∈ made' := by
  have ht := h.timeout
  have hlen : ((part.2 : Int) - part.1).toNat = part.2 - part.1 := by omega
  have h' : Expired now bound before { m with ticks := m.ticks + 1 } made :=
    ⟨h.timeout, h.requests, h.chunks⟩
  unfold readCached
  rw [if_neg (by omega), hlen]
  obtain ⟨made', hexp, hsub, hdata, hall⟩ := readChunks_expired h' part.1
    (part.2 - part.1) (Nat.le_refl _) (fun x hx hx' => by omega) []
  exact ⟨made', hexp, hsub, hdata, fun x hx hx' => hall x hx (by omega)⟩

theorem issueReads_expired (h : Expired now bound before m made) (reads : List (Nat × Nat))
    (hreads : ∀ part ∈ reads, part.1 < part.2 ∧ part.2 ≤ bound)
    (lastRead : Option (Nat × Nat)) (data : List UInt8) :
    ∃ made', Expired now bound before
        (issueReads (expiredWorld now) m lastRead reads data).2 made' ∧ made ⊆ made' ∧
      ∀ part ∈ reads, ∀ x, part.1 ≤ x → x < part.2 → chunkRequest (x / cacheChunk) ∈ made' := by
  induction reads generalizing m made lastRead data with
  | nil => exact ⟨made, h, List.Subset.refl _, by simp⟩
  | cons part reads ih =>
    obtain ⟨hne, hbound⟩ := hreads part (by simp)
    obtain ⟨made', h', hsub, hdata, hall⟩ := readCached_expired h part hbound
    unfold issueReads
    dsimp only
    generalize readCached (expiredWorld now) m part.1 (part.2 - part.1) = answer at h' hdata
    obtain ⟨bytes, t⟩ := answer
    obtain ⟨n, hn⟩ : ∃ n, part.2 - part.1 = n + 1 := ⟨part.2 - part.1 - 1, by omega⟩
    dsimp only at hdata
    rw [hn] at hdata
    subst hdata
    obtain ⟨made'', h'', hsub', hall'⟩ :=
      ih h' (fun p hp => hreads p (by simp [hp])) (some part) _
    refine ⟨made'', h'', fun r hr => hsub' (hsub hr), fun p hp => ?_⟩
    obtain rfl | hp := List.mem_cons.mp hp
    · exact fun x hx hx' => hsub' (hall x hx hx')
    · exact hall' p hp

end Expired

/-- The good bytes of a tiling lie in its parts. -/
theorem Tiles.covers {regions : List (Nat × Nat)} {p q : Nat} {reads : List (Nat × Nat)}
    (h : Tiles regions p reads q) {x : Nat} (hx : p ≤ x) (hx' : x < q) (hgood : ¬ Bad regions x) :
    ∃ part ∈ reads, part.1 ≤ x ∧ x < part.2 := by
  induction h with
  | nil p => omega
  | @cons p q part reads start nonempty blank clear rest ih =>
    by_cases hbefore : x < part.1
    · exact absurd (blank x hx hbefore) hgood
    · by_cases hin : x < part.2
      · exact ⟨part, by simp, by omega, hin⟩
      · obtain ⟨part', hmem, hpart⟩ := ih (by omega) hx'
        exact ⟨part', List.mem_cons_of_mem _ hmem, hpart⟩

/-- With an expired cache the chunk of every good byte of a request is asked for. -/
theorem read_expired {now : Int} {address length : Nat} {m : MemorySensor}
    (h : Expired now (address + length) m.requests m []) (hsep : Separated m.badMemRegions)
    {x : Nat} (hx : address ≤ x) (hx' : x < address + length) (hgood : ¬ Bad m.badMemRegions x) :
    ∃ made, (read (expiredWorld now) m address length).2.requests = m.requests ++ made ∧
      chunkRequest (x / cacheChunk) ∈ made := by
  have hcut := scanRegions_all hsep address length
  unfold Sensor.read
  generalize scanRegions address length m.badMemRegions none [] = result at hcut
  cases result with
  | none => exact absurd (hcut x hx hx') hgood
  | some result =>
    obtain ⟨last, reads⟩ := result
    cases last with
    | none =>
      obtain ⟨made, hexp, -, -, hall⟩ :=
        readCached_expired h (address, address + length) (Nat.le_refl _)
      have hcast : ((address + length : Nat) : Int) - address = length := by omega
      dsimp only at hexp hall
      rw [hcast] at hexp
      exact ⟨made, hexp.requests, hall x hx hx'⟩
    | some last =>
      obtain ⟨first, rest, q, hreads, htiles, hq, hblank⟩ := hcut.final hsep
      have hxq : x < q := by
        by_contra hxq
        exact hgood (hblank x (by omega) hx')
      obtain ⟨part, hmem, hpart, hpart'⟩ := Tiles.covers htiles hx hxq hgood
      dsimp only
      rw [hreads]
      dsimp only
      obtain ⟨made, hexp, -, hall⟩ := issueReads_expired h (first :: rest)
        (fun p hp => by
          obtain ⟨-, h2, h3, -⟩ := htiles.mem p hp
          exact ⟨h2, by omega⟩) none (zeros (first.1 - address))
      refine ⟨made, ?_, hall part hmem x hpart hpart'⟩
      rw [← hexp.requests]
      generalize issueReads (expiredWorld now) m none (first :: rest)
        (zeros (first.1 - address)) = answer
      obtain ⟨data, t⟩ := answer
      cases data <;> rfl

/-! ## Bad regions and chunks -/

/-- The calls of `_read_from_sensor` that a read makes. -/
def requestsOf (w : World) (m : MemorySensor) (address length : Nat) : List Request :=
  (read w m address length).2.requests.drop m.requests.length

theorem requestsOf_eq {w : World} {m : MemorySensor} {address length : Nat}
    {made : List Request}
    (h : (read w m address length).2.requests = m.requests ++ made) :
    requestsOf w m address length = made := by
  unfold requestsOf
  rw [h, List.drop_left]

/-- Whatever the sensor answers and the clock shows, no call of a read asks for a byte of a
bad region. -/
def NeverTouches (m : MemorySensor) (address length : Nat) : Prop :=
  ∀ w, ∀ r ∈ requestsOf w m address length,
    Clear m.badMemRegions r.address (r.address + r.length.toNat)

/-- The chunk of every good byte of the request is free of bad bytes. -/
def ChunksClear (m : MemorySensor) (address length : Nat) : Prop :=
  ∀ x, address ≤ x → x < address + length → ¬ Bad m.badMemRegions x →
    Clear m.badMemRegions (x / cacheChunk * cacheChunk) (x / cacheChunk * cacheChunk + cacheChunk)

/-- For finitely many chunks there is a time at which their entries have expired. -/
theorem exists_expired (m : MemorySensor) (bound : Nat) :
    ∃ now, ∀ k ≤ bound, ∀ entry time, m.cache k = some (entry, time) →
      time ≤ now - m.cacheTimeout := by
  induction bound with
  | zero =>
    cases hk : m.cache 0 with
    | none =>
      refine ⟨0, fun k hle entry time h => ?_⟩
      rw [Nat.le_zero.mp hle, hk] at h
      cases h
    | some cached =>
      refine ⟨cached.2 + m.cacheTimeout, fun k hle entry time h => ?_⟩
      rw [Nat.le_zero.mp hle, hk] at h
      cases h
      omega
  | succ bound ih =>
    obtain ⟨now, hnow⟩ := ih
    cases hk : m.cache (bound + 1) with
    | none =>
      refine ⟨now, fun k hle entry time h => ?_⟩
      obtain hlt | rfl := Nat.le_succ_iff.mp hle
      · exact hnow k hlt entry time h
      · rw [hk] at h
        cases h
    | some cached =>
      refine ⟨max now (cached.2 + m.cacheTimeout), fun k hle entry time h => ?_⟩
      obtain hlt | rfl := Nat.le_succ_iff.mp hle
      · have := hnow k hlt entry time h
        omega
      · rw [hk] at h
        cases h
        omega

/-- **A read keeps out of the bad regions exactly when the cache is disabled or no chunk holds
both a good byte of the request and a bad byte.** What the cache holds does not matter: its
entries expire. -/
theorem neverTouches_iff {m : MemorySensor} (hsep : Separated m.badMemRegions)
    (address length : Nat) :
    NeverTouches m address length ↔ m.cacheTimeout ≤ 0 ∨ ChunksClear m address length := by
  constructor
  · intro h
    by_cases ht : m.cacheTimeout ≤ 0
    · exact .inl ht
    right
    intro x hx hx' hgood
    obtain ⟨now, hnow⟩ := exists_expired m (address + length)
    have hexp : Expired now (address + length) m.requests m [] :=
      ⟨by omega, by simp, fun k hk => .inl (hnow k hk)⟩
    obtain ⟨made, hreq, hmem⟩ := read_expired hexp hsep hx hx' hgood
    rw [← requestsOf_eq hreq] at hmem
    exact h (expiredWorld now) _ hmem
  · intro h w r hr
    obtain ⟨-, made, hreq, hmade⟩ := read_asks w hsep address length
    rw [requestsOf_eq hreq] at hr
    obtain ⟨part, hstart, hstop, hclear, hwants⟩ := hmade r hr
    obtain ⟨-, haddr, hlen⟩ | ⟨ht, x, hx, hx', haddr, hlen⟩ := hwants
    · rw [haddr, hlen]
      exact fun y hy hy' => hclear y hy (by omega)
    · rw [haddr, hlen, Int.toNat_natCast]
      obtain h | h := h
      · omega
      · exact h x (by omega) (by omega) (hclear x hx (by omega))

theorem neverTouches_iff_vga :
    NeverTouches { badMemRegions := [(0xA0000, 0x100000)], cacheTimeout := 1 } 0 1 ↔
      ((1 : Int) ≤ 0 ∨
        ChunksClear { badMemRegions := [(0xA0000, 0x100000)], cacheTimeout := 1 } 0 1) :=
  neverTouches_iff ⟨List.pairwise_singleton _ _, by decide⟩ 0 1

/-- The byte before the first region of the physical sensor, with a cache. -/
theorem touches_vga :
    ¬ NeverTouches { badMemRegions := [(0xA0000, 0x100000)], cacheTimeout := 1 } 0x9FFFF 1 := by
  intro h
  have hreq : requestsOf (expiredWorld 0)
      { badMemRegions := [(0xA0000, 0x100000)], cacheTimeout := 1 } 0x9FFFF 1 =
        [chunkRequest 85] := by decide +kernel
  refine h (expiredWorld 0) (chunkRequest 85) (by rw [hreq]; simp) 0xA0000 ?_ ?_ ?_
  · decide
  · decide
  · exact ⟨(0xA0000, 0x100000), by simp, by decide, by decide⟩

end LoPhi.Memory.Untouched
