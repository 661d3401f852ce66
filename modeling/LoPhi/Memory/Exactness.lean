import Mathlib.Algebra.Order.BigOperators.Group.List
import LoPhi.Memory.Holes

/-! # Exact reads

With a sensor that answers every request exactly, what a read returns is a function
of memory and of the reads the request is cut into: the cache does not show. For
separated regions that is memory with the bad bytes blanked. The table of the
physical sensor is not sorted, and a request that spans the region out of order and
a later one goes wrong. -/

namespace LoPhi.Memory.Exactness
open LoPhi.Lib.Python LoPhi.Lib.Window LoPhi.Memory.Sensor LoPhi.Memory.Cached LoPhi.Memory.Holes

variable {w : World} {mem : Nat → UInt8} {m : MemorySensor} {address length : Nat}

/-- What the loop over `READS` collects. An empty read ends it. -/
def collected (mem : Nat → UInt8) : Option (Nat × Nat) → List (Nat × Nat) → List UInt8 →
    Option (List UInt8)
  | _, [], data => some data
  | lastRead, part :: reads, data =>
    let gap := match lastRead with
      | none => 0
      | some last => part.1 - last.2
    if part.2 ≤ part.1 then none
    else collected mem (some part) reads
      (data ++ zeros gap ++ window mem part.1 (part.2 - part.1))

theorem issueReads_exact (hw : Exact mem w) (hc : CacheOf mem m) (lastRead : Option (Nat × Nat))
    (reads : List (Nat × Nat)) (data : List UInt8) :
    ∃ made, Progress mem w m (issueReads w m lastRead reads data).2 made ∧
      (issueReads w m lastRead reads data).1 = collected mem lastRead reads data := by
  induction reads generalizing m lastRead data with
  | nil => exact ⟨[], Progress.refl hc, rfl⟩
  | cons part reads ih =>
    obtain ⟨made, hp, heq⟩ := readCached_exact hw hc part.1 (part.2 - part.1)
    have hlen : ((part.2 : Int) - part.1).toNat = part.2 - part.1 := by omega
    rw [hlen] at heq
    unfold issueReads collected
    generalize readCached w m part.1 (part.2 - part.1) = answer at hp heq
    obtain ⟨bytes, t⟩ := answer
    dsimp only at heq hp ⊢
    subst heq
    by_cases hempty : part.2 ≤ part.1
    · rw [if_pos hempty, Nat.sub_eq_zero_of_le hempty]
      exact ⟨made, hp, rfl⟩
    · rw [if_neg hempty]
      obtain ⟨n, hn⟩ : ∃ n, part.2 - part.1 = n + 1 := ⟨part.2 - part.1 - 1, by omega⟩
      rw [hn, window_succ]
      dsimp only
      obtain ⟨made', hp', heq'⟩ := ih hp.cache (some part)
        (data ++ zeros (match lastRead with | none => 0 | some last => part.1 - last.2) ++
          mem part.1 :: window mem (part.1 + 1) n)
      exact ⟨made ++ made', hp.trans hp', heq'⟩

/-- `read` keeps the cache true to memory, whatever the regions are. -/
theorem read_cacheOf (hw : Exact mem w) (hc : CacheOf mem m) (address length : Nat) :
    CacheOf mem (read w m address length).2 := by
  unfold Sensor.read
  split
  · exact hc
  · obtain ⟨made, hp, -⟩ := readCached_exact hw hc address length
    exact hp.cache
  · rename_i last reads _
    dsimp only
    split
    · exact hc
    · rename_i first rest hreads
      obtain ⟨made, hp, -⟩ := issueReads_exact hw hc none (first :: rest)
        (zeros (first.1 - address))
      rw [hreads]
      generalize issueReads w m none (first :: rest) (zeros (first.1 - address)) = answer at hp
      obtain ⟨data, t⟩ := answer
      cases data <;> exact hp.cache

/-- The sensors a program can hold: a fresh one, and what reads and changes of the
settings make of it. -/
inductive Reached (w : World) : MemorySensor → Prop
  | fresh (m : MemorySensor) (empty : m.cache = fun _ => none) : Reached w m
  | configure {m : MemorySensor} (regions : List (Nat × Nat)) (timeout : Int)
      (earlier : Reached w m) :
      Reached w { m with badMemRegions := regions, cacheTimeout := timeout }
  | read {m : MemorySensor} (address length : Nat) (earlier : Reached w m) :
      Reached w (Sensor.read w m address length).2

theorem Reached.cacheOf (hw : Exact mem w) (h : Reached w m) : CacheOf mem m := by
  induction h with
  | fresh m empty => exact CacheOf.fresh empty
  | configure regions timeout earlier ih => exact ih
  | read address length earlier ih => exact read_cacheOf hw ih address length

/-- The result is the requested bytes, those of bad regions as zeros. -/
def ReadsExactly (mem : Nat → UInt8) (regions : List (Nat × Nat)) (address length : Nat)
    (result : Except PyError (Option (List UInt8))) : Prop :=
  ∃ data, result = .ok (some data) ∧ data.length = length ∧
    ∀ i < length, data[i]? =
      some (if Bad regions (address + i) then 0 else mem (address + i))

theorem readsExactly_masked (mem : Nat → UInt8) (regions : List (Nat × Nat))
    (address length : Nat) :
    ReadsExactly mem regions address length
      (.ok (some (window (masked mem regions) address length))) :=
  ⟨_, rfl, length_window, fun _ hi => getElem?_window hi⟩

/-- **Reads around separated bad regions are exact**, whatever the request, the cache
settings and the earlier reads. -/
theorem read_exact (hw : Exact mem w) (hm : Reached w m) (hsep : Separated m.badMemRegions)
    (hlen : 1 ≤ length) :
    ReadsExactly mem m.badMemRegions address length (read w m address length).1 := by
  obtain ⟨made, hp, hreads⟩ := read_progress hw.truthful (hm.cacheOf hw) hsep hlen
  rw [hreads.answered (hp.answered hw)]
  exact readsExactly_masked mem m.badMemRegions address length

/-- A sensor that always answers, with a clock that stands still. -/
def exactWorld (mem : Nat → UInt8) : World where
  clock _ := 0
  sensor _ address length := some (window mem address length.toNat)

theorem exact_exactWorld (mem : Nat → UInt8) : Exact mem (exactWorld mem) := fun _ _ _ => rfl

/-- Memory that holds the low byte of every address. -/
def addresses (x : Nat) : UInt8 := UInt8.ofNat x

/-- A sensor after a read of two bytes. -/
def oneRead (regions : List (Nat × Nat)) (timeout : Int) : MemorySensor :=
  (Sensor.read (exactWorld addresses) { badMemRegions := regions, cacheTimeout := timeout } 1 2).2

theorem reached_oneRead (regions : List (Nat × Nat)) (timeout : Int) :
    Reached (exactWorld addresses) (oneRead regions timeout) :=
  .read 1 2 (.fresh _ rfl)

theorem read_exact_around_hole :
    ReadsExactly addresses [(2, 4)] 0 6
      (read (exactWorld addresses) (oneRead [(2, 4)] 0) 0 6).1 :=
  read_exact (exact_exactWorld addresses) (reached_oneRead [(2, 4)] 0)
    ⟨List.pairwise_singleton _ _, by decide⟩ (by decide)

/-! ## The table of the physical sensor -/

/-- The `BAD_MEM_REGIONS` of `MemorySensorPhysical.__init__`. -/
def physicalRegions : List (Nat × Nat) :=
  [(0xA0000, 0x100000), (0x7fe00000, 0x80000000), (0xdbf00000, 0x100000000),
    (0x3ff00000, 0x40000000)]

/-- The same regions in order. -/
def sortedRegions : List (Nat × Nat) :=
  [(0xA0000, 0x100000), (0x3ff00000, 0x40000000), (0x7fe00000, 0x80000000),
    (0xdbf00000, 0x100000000)]

theorem separated_sortedRegions : Separated sortedRegions :=
  ⟨by decide, by decide⟩

theorem bad_physicalRegions (x : Nat) : Bad physicalRegions x ↔ Bad sortedRegions x := by
  have hperm : physicalRegions.Perm sortedRegions := by decide
  exact exists_congr fun r => and_congr_left fun _ => hperm.mem_iff

/-- The region has a byte in the request. -/
def meets (address length : Nat) (bad : Nat × Nat) : Bool :=
  address < bad.2 && bad.1 < address + length

theorem scanRegions_skip (hlen : 1 ≤ length) {bad : Nat × Nat} (hne : bad.1 < bad.2)
    (hout : bad.2 ≤ address ∨ address + length ≤ bad.1) (rest : List (Nat × Nat))
    (last : Option (Nat × Nat)) (reads : List (Nat × Nat)) :
    scanRegions address length (bad :: rest) last reads =
      scanRegions address length rest last reads := by
  conv => lhs; unfold scanRegions
  rw [if_neg (by omega), if_neg (by omega), if_neg (by omega)]

/-- Regions without a byte in the request change nothing. -/
theorem scanRegions_filter (hlen : 1 ≤ length) {regions : List (Nat × Nat)}
    (hne : ∀ r ∈ regions, r.1 < r.2) (last : Option (Nat × Nat)) (reads : List (Nat × Nat)) :
    scanRegions address length regions last reads =
      scanRegions address length (regions.filter (meets address length)) last reads := by
  induction regions generalizing last reads with
  | nil => rfl
  | cons bad regions ih =>
    have hbad := hne bad (by simp)
    have ih' := ih fun r hr => hne r (by simp [hr])
    by_cases hmeets : meets address length bad = true
    · rw [List.filter_cons_of_pos hmeets]
      unfold scanRegions
      simp only [ih']
    · rw [List.filter_cons_of_neg hmeets, ← ih']
      simp only [meets, Bool.and_eq_true, decide_eq_true_eq] at hmeets
      exact scanRegions_skip hlen hbad (by omega) regions last reads

/-- A request that ends before the second region of the table or begins after the last
meets the regions in order. -/
theorem filter_physicalRegions (h : ¬ (address < 0x40000000 ∧ 0x7fe00000 < address + length)) :
    physicalRegions.filter (meets address length) =
      sortedRegions.filter (meets address length) := by
  unfold physicalRegions sortedRegions
  by_cases hend : address + length ≤ 0x7fe00000
  · have h2 : meets address length (0x7fe00000, 0x80000000) = false := by
      simp [meets]; omega
    have h3 : meets address length (0xdbf00000, 0x100000000) = false := by
      simp [meets]; omega
    simp only [List.filter_cons, h2, h3]
    simp
  · have h4 : meets address length (0x3ff00000, 0x40000000) = false := by
      simp [meets]; omega
    simp only [List.filter_cons, h4]
    simp

/-- A region that begins in the request and does not hold all of it. -/
theorem scanRegions_meet {bad : Nat × Nat} {rest : List (Nat × Nat)} {last : Option (Nat × Nat)}
    {reads : List (Nat × Nat)} (hstart : address ≤ bad.1) (hstop : bad.1 < address + length)
    (hpart : ¬ (bad.1 ≤ address ∧ address + length ≤ bad.2)) :
    scanRegions address length (bad :: rest) last reads =
      scanRegions address length rest (some bad)
        (match last with
          | none => if address = bad.1 then reads else reads ++ [(address, bad.1)]
          | some last => reads ++ [(last.2, bad.1)]) := by
  conv => lhs; unfold scanRegions
  rw [if_neg hpart, if_pos ⟨hstart, hstop⟩]
  cases last <;> rfl

/-- Where the loop stands after the first three regions of the table, for a request
from below the fourth to beyond the second. -/
theorem scan_before_fourth (haddr : address < 0x40000000) (hstop : 0x7fe00000 < address + length) :
    ∃ last reads, scanRegions address length physicalRegions none [] =
        scanRegions address length [(0x3ff00000, 0x40000000)] (some last) reads ∧
      0x80000000 ≤ last.2 ∧ (0x3ff00000 < address → (address, 0x7fe00000) ∈ reads) := by
  obtain ⟨last1, reads1, hscan1, hfar⟩ : ∃ last1 reads1,
      scanRegions address length physicalRegions none [] =
        scanRegions address length [(0x7fe00000, 0x80000000), (0xdbf00000, 0x100000000),
          (0x3ff00000, 0x40000000)] last1 reads1 ∧ (0x3ff00000 < address → last1 = none) := by
    unfold physicalRegions
    conv => enter [1, last1, 1, reads1, 1, 1]; unfold scanRegions
    dsimp only
    split_ifs with h1 h2 h3 h4
    · omega
    · exact ⟨_, _, rfl, by omega⟩
    · exact ⟨_, _, rfl, by omega⟩
    · exact ⟨_, _, rfl, by omega⟩
    · exact ⟨_, _, rfl, fun _ => rfl⟩
  rw [hscan1, scanRegions_meet (by dsimp only; omega) hstop (by dsimp only; omega)]
  have hread : 0x3ff00000 < address → (address, 0x7fe00000) ∈
      (match last1 with
        | none => if address = 0x7fe00000 then reads1 else reads1 ++ [(address, 0x7fe00000)]
        | some last => reads1 ++ [(last.2, 0x7fe00000)]) := by
    intro hlate
    rw [hfar hlate]
    dsimp only
    rw [if_neg (by omega)]
    simp
  by_cases hthird : 0xdbf00000 < address + length
  · rw [scanRegions_meet (by dsimp only; omega) hthird (by dsimp only; omega)]
    exact ⟨_, _, rfl, by decide, fun hlate => List.mem_append_left _ (hread hlate)⟩
  · rw [scanRegions_skip (by omega) (by decide) (.inr (by dsimp only; omega))]
    exact ⟨_, _, rfl, by decide, hread⟩

/-- The fourth region then adds a read that runs backwards, or hides that the bytes
after it were read already. -/
theorem scan_fourth (haddr : address < 0x40000000) (hstop : 0x7fe00000 < address + length) :
    ∃ reads, scanRegions address length physicalRegions none [] =
        some (some (0x3ff00000, 0x40000000), reads) ∧
      ((∃ part ∈ reads, part.2 ≤ part.1) ∨ (address, 0x7fe00000) ∈ reads) := by
  obtain ⟨last, reads, hscan, hlast, hread⟩ := scan_before_fourth haddr hstop
  rw [hscan]
  by_cases hlate : 0x3ff00000 < address
  · unfold scanRegions
    rw [if_neg (by dsimp only; omega), if_neg (by dsimp only; omega),
      if_pos (by dsimp only; omega)]
    exact ⟨reads, rfl, .inr (hread hlate)⟩
  · rw [scanRegions_meet (by dsimp only; omega) (by dsimp only; omega) (by dsimp only; omega)]
    refine ⟨_, rfl, .inl ⟨(last.2, 0x3ff00000), by simp, ?_⟩⟩
    dsimp only
    omega

/-! ## Reads that go wrong -/

theorem collected_none {part : Nat × Nat} (hempty : part.2 ≤ part.1) {reads : List (Nat × Nat)}
    (hmem : part ∈ reads) (lastRead : Option (Nat × Nat)) (data : List UInt8) :
    collected mem lastRead reads data = none := by
  induction reads generalizing lastRead data with
  | nil => cases hmem
  | cons first reads ih =>
    unfold collected
    dsimp only
    split
    · rfl
    · rename_i hfirst
      obtain rfl | hmem := List.mem_cons.mp hmem
      · exact absurd hempty hfirst
      · exact ih hmem _ _

/-- Nothing that was read is dropped. -/
theorem collected_length {reads : List (Nat × Nat)} {lastRead : Option (Nat × Nat)}
    {data all : List UInt8} (h : collected mem lastRead reads data = some all) :
    data.length + (reads.map fun part => part.2 - part.1).sum ≤ all.length := by
  induction reads generalizing lastRead data with
  | nil =>
    cases h
    simp
  | cons first reads ih =>
    unfold collected at h
    dsimp only at h
    split at h
    · cases h
    · have hle := ih h
      simp only [List.length_append, length_window] at hle
      rw [List.map_cons, List.sum_cons]
      omega

/-- `read` through the loop over `READS`. -/
theorem read_collected (hw : Exact mem w) (hc : CacheOf mem m) {last first : Nat × Nat}
    {reads rest : List (Nat × Nat)}
    (hscan : scanRegions address length m.badMemRegions none [] = some (some last, reads))
    (hreads : (if last.2 < address + length then reads ++ [(last.2, address + length)]
      else reads) = first :: rest) :
    (read w m address length).1 =
      .ok ((collected mem none (first :: rest) (zeros (first.1 - address))).map
        fun data => data ++ zeros (length - data.length)) := by
  unfold Sensor.read
  rw [hscan]
  dsimp only
  rw [hreads]
  dsimp only
  obtain ⟨made, -, heq⟩ := issueReads_exact hw hc none (first :: rest) (zeros (first.1 - address))
  rw [← heq]
  generalize issueReads w m none (first :: rest) (zeros (first.1 - address)) = answer
  obtain ⟨data, t⟩ := answer
  cases data <;> rfl

/-- A request from below the fourth region of the table to beyond the second fails or
gives too many bytes. -/
theorem read_outOfOrder (hw : Exact mem w) (hc : CacheOf mem m)
    (hregions : m.badMemRegions = physicalRegions) (haddr : address < 0x40000000)
    (hstop : 0x7fe00000 < address + length) :
    ∀ data, (read w m address length).1 = .ok (some data) → data.length ≠ length := by
  obtain ⟨reads, hscan, hwrong⟩ := scan_fourth haddr hstop
  rw [← hregions] at hscan
  obtain ⟨first, rest, hreads⟩ := List.exists_cons_of_ne_nil
    (List.append_ne_nil_of_right_ne_nil reads
      (List.cons_ne_nil (0x40000000, address + length) []))
  have hread := read_collected hw hc hscan (by
    rw [if_pos (by dsimp only; omega)]
    exact hreads)
  intro data hdata
  rw [hread, ← hreads] at hdata
  cases hwrong with
  | inl hback =>
    obtain ⟨part, hmem, hempty⟩ := hback
    rw [collected_none hempty (List.mem_append_left _ hmem)] at hdata
    cases hdata
  | inr htwice =>
    obtain ⟨all, hall⟩ : ∃ all, collected mem none (reads ++ [(0x40000000, address + length)])
        (zeros (first.1 - address)) = some all := by
      refine Option.ne_none_iff_exists'.mp fun hnone => ?_
      rw [hnone] at hdata
      cases hdata
    have hlong := collected_length hall
    have hone : 0x7fe00000 - address ≤ (reads.map fun part => part.2 - part.1).sum :=
      List.le_sum_of_mem (List.mem_map_of_mem htwice)
    rw [List.map_append, List.sum_append, List.map_singleton, List.sum_singleton] at hlong
    rw [hall] at hdata
    cases hdata
    rw [List.length_append]
    omega

/-- **The table of the physical sensor gives exact reads exactly for the requests that do
not span its last region and its second**: the regions of the others come in order. -/
theorem physical_read_exact_iff (hw : Exact mem w) (hm : Reached w m)
    (hregions : m.badMemRegions = physicalRegions) (hlen : 1 ≤ length) :
    ReadsExactly mem physicalRegions address length (read w m address length).1 ↔
      ¬ (address < 0x40000000 ∧ 0x7fe00000 < address + length) := by
  have hc := hm.cacheOf hw
  constructor
  · rintro ⟨data, hdata, hlength, -⟩ ⟨haddr, hstop⟩
    exact read_outOfOrder hw hc hregions haddr hstop data hdata hlength
  · intro h
    have hscan : scanRegions address length m.badMemRegions none [] =
        scanRegions address length sortedRegions none [] := by
      rw [hregions, scanRegions_filter hlen (by decide), filter_physicalRegions h,
        ← scanRegions_filter hlen (by decide)]
    obtain ⟨made, hp, hreads⟩ := read_of_cut hw.truthful hc separated_sortedRegions hlen
      (hscan ▸ scanRegions_all separated_sortedRegions address length)
    rw [hreads.answered (hp.answered hw)]
    obtain ⟨data, hdata, hlength, hbytes⟩ :=
      readsExactly_masked mem sortedRegions address length
    refine ⟨data, hdata, hlength, fun i hi => ?_⟩
    rw [hbytes i hi]
    simp only [bad_physicalRegions]

theorem physical_read_exact_low :
    (ReadsExactly addresses physicalRegions 0 16
        (read (exactWorld addresses) (oneRead physicalRegions 0) 0 16).1 ↔
      ¬ (0 < 0x40000000 ∧ 0x7fe00000 < 0 + 16)) ∧
    (ReadsExactly addresses physicalRegions 0x3fff0000 0x40000000
        (read (exactWorld addresses) (oneRead physicalRegions 0) 0x3fff0000 0x40000000).1 ↔
      ¬ (0x3fff0000 < 0x40000000 ∧ 0x7fe00000 < 0x3fff0000 + 0x40000000)) :=
  ⟨physical_read_exact_iff (exact_exactWorld addresses) (reached_oneRead _ 0) rfl (by decide),
    physical_read_exact_iff (exact_exactWorld addresses) (reached_oneRead _ 0) rfl (by decide)⟩

/-- A fresh sensor without a cache asked for the bytes from below the fourth region to
beyond the second. -/
theorem physical_read_not_exact :
    ¬ ReadsExactly addresses physicalRegions 0x3fff0000 0x40000000
      (read (exactWorld addresses) { badMemRegions := physicalRegions } 0x3fff0000
        0x40000000).1 := by
  rintro ⟨data, hdata, hlength, -⟩
  exact read_outOfOrder (exact_exactWorld addresses) (CacheOf.fresh rfl) rfl (by decide)
    (by decide) data hdata hlength

end LoPhi.Memory.Exactness
