import LoPhi.Memory.Cached

/-! # Requests around bad regions

The loop over the regions cuts a request into reads. Between the reads, and after
the last one, every byte is bad; within a read none is. With the reads answered
exactly the result is memory with the bad bytes blanked. -/

namespace LoPhi.Memory.Holes
open LoPhi.Lib.Python LoPhi.Lib.Window LoPhi.Memory.Sensor LoPhi.Memory.Cached

/-- The address lies in one of the regions. -/
def Bad (regions : List (Nat × Nat)) (x : Nat) : Prop := ∃ r ∈ regions, r.1 ≤ x ∧ x < r.2

instance (regions : List (Nat × Nat)) (x : Nat) : Decidable (Bad regions x) :=
  inferInstanceAs (Decidable (∃ r ∈ regions, _))

/-- Memory with the bad bytes blanked. -/
def masked (mem : Nat → UInt8) (regions : List (Nat × Nat)) (x : Nat) : UInt8 :=
  if Bad regions x then 0 else mem x

/-- Sorted, not empty, and with a good byte between any two. -/
structure Separated (regions : List (Nat × Nat)) : Prop where
  apart : regions.Pairwise fun r r' => r.2 < r'.1
  nonempty : ∀ r ∈ regions, r.1 < r.2

/-- No byte of `[lo, hi)` is bad. -/
def Clear (regions : List (Nat × Nat)) (lo hi : Nat) : Prop :=
  ∀ x, lo ≤ x → x < hi → ¬ Bad regions x

/-- Every byte of `[lo, hi)` is bad. -/
def Blank (regions : List (Nat × Nat)) (lo hi : Nat) : Prop :=
  ∀ x, lo ≤ x → x < hi → Bad regions x

/-- From `p` to `q`: the reads are clear and what lies before each of them is bad. -/
inductive Tiles (regions : List (Nat × Nat)) : Nat → List (Nat × Nat) → Nat → Prop
  | nil (p : Nat) : Tiles regions p [] p
  | cons {p q : Nat} {read : Nat × Nat} {reads : List (Nat × Nat)} (start : p ≤ read.1)
      (nonempty : read.1 < read.2) (blank : Blank regions p read.1)
      (clear : Clear regions read.1 read.2) (rest : Tiles regions read.2 reads q) :
      Tiles regions p (read :: reads) q

section Tiles
variable {regions : List (Nat × Nat)} {p q : Nat} {reads : List (Nat × Nat)}

theorem Tiles.le (h : Tiles regions p reads q) : p ≤ q := by
  induction h with
  | nil p => exact Nat.le_refl p
  | cons start nonempty _ _ _ ih => omega

theorem Tiles.snoc (h : Tiles regions p reads q) {read : Nat × Nat} (start : q ≤ read.1)
    (nonempty : read.1 < read.2) (blank : Blank regions q read.1)
    (clear : Clear regions read.1 read.2) : Tiles regions p (reads ++ [read]) read.2 := by
  induction h with
  | nil p => exact .cons start nonempty blank clear (.nil _)
  | cons start' nonempty' blank' clear' _ ih =>
    exact .cons start' nonempty' blank' clear' (ih start blank)

theorem Tiles.mem (h : Tiles regions p reads q) :
    ∀ read ∈ reads, p ≤ read.1 ∧ read.1 < read.2 ∧ read.2 ≤ q ∧ Clear regions read.1 read.2 := by
  induction h with
  | nil p => simp
  | cons start nonempty blank clear rest ih =>
    intro read hread
    have hle := rest.le
    obtain rfl | hread := List.mem_cons.mp hread
    · exact ⟨start, nonempty, hle, clear⟩
    · obtain ⟨h1, h2, h3, h4⟩ := ih read hread
      exact ⟨by omega, h2, h3, h4⟩

theorem window_blank {mem : Nat → UInt8} (h : Blank regions p (p + q)) :
    window (masked mem regions) p q = zeros q :=
  window_const 0 fun x hx hx' => if_pos (h x hx hx')

theorem window_clear {mem : Nat → UInt8} (h : Clear regions p (p + q)) :
    window (masked mem regions) p q = window mem p q :=
  window_congr fun x hx hx' => if_neg (h x hx hx')

/-- The first tile: zeros for what is bad, memory for the read, and then the others. -/
theorem window_tile (mem : Nat → UInt8) {read : Nat × Nat} (start : p ≤ read.1)
    (nonempty : read.1 < read.2) (blank : Blank regions p read.1)
    (clear : Clear regions read.1 read.2) (hq : read.2 ≤ q) :
    zeros (read.1 - p) ++ (window mem read.1 (read.2 - read.1) ++
        window (masked mem regions) read.2 (q - read.2)) =
      window (masked mem regions) p (q - p) := by
  have hgap : zeros (read.1 - p) = window (masked mem regions) p (read.1 - p) := by
    refine (window_blank ?_).symm
    rwa [Nat.add_sub_cancel' start]
  have hread : window mem read.1 (read.2 - read.1) =
      window (masked mem regions) read.1 (read.2 - read.1) := by
    refine (window_clear ?_).symm
    rwa [Nat.add_sub_cancel' (Nat.le_of_lt nonempty)]
  have hall : q - p = (read.1 - p) + ((read.2 - read.1) + (q - read.2)) := by omega
  rw [hgap, hread, hall, window_add, window_add, Nat.add_sub_cancel' start,
    Nat.add_sub_cancel' (Nat.le_of_lt nonempty)]

/-- Zeros make up for a blank end. -/
theorem window_pad (mem : Nat → UInt8) {n : Nat} (hle : p ≤ q) (hq : q ≤ p + n)
    (hblank : Blank regions q (p + n)) :
    window (masked mem regions) p (q - p) ++ zeros (n - (q - p)) =
      window (masked mem regions) p n := by
  have hzeros : zeros (n - (q - p)) = window (masked mem regions) q (n - (q - p)) := by
    refine (window_blank ?_).symm
    rwa [show q + (n - (q - p)) = p + n by omega]
  have hall : n = (q - p) + (n - (q - p)) := by omega
  rw [hzeros]
  conv => rhs; rw [hall, window_add, Nat.add_sub_cancel' hle]

end Tiles

/-! ## The loop over the regions -/

/-- What the regions looked at so far, `done`, say about the request
`[address, stop)`. -/
def Scanned (done rest : List (Nat × Nat)) (address stop : Nat) :
    Option (Nat × Nat) → List (Nat × Nat) → Prop
  | none, reads => reads = [] ∧ Clear done address stop
  | some last, reads =>
    last ∈ done ∧ address < last.2 ∧ last.1 < stop ∧ ¬ (last.1 ≤ address ∧ stop ≤ last.2) ∧
      Tiles (done ++ rest) address reads (max address last.1) ∧ Clear done last.2 stop

theorem bad_append {done rest : List (Nat × Nat)} {x : Nat} :
    Bad (done ++ rest) x ↔ Bad done x ∨ Bad rest x := by
  simp only [Bad, List.mem_append, or_and_right, exists_or]

/-- The regions after a separated list begin later. -/
theorem Separated.clear_rest {done rest : List (Nat × Nat)} {bad : Nat × Nat}
    (h : Separated (done ++ bad :: rest)) {lo : Nat} (hdone : Clear done lo bad.1) :
    Clear (done ++ bad :: rest) lo bad.1 := by
  intro x hx hx' hbad
  obtain hbad | ⟨r, hr, hr1, hr2⟩ := bad_append.mp hbad
  · exact hdone x hx hx' hbad
  · obtain rfl | hr := List.mem_cons.mp hr
    · omega
    · have hpair := (List.pairwise_append.mp h.apart).2.1
      have hlt := (List.pairwise_cons.mp hpair).1 r hr
      have hne := h.nonempty bad (by simp)
      omega

theorem Clear.snoc {done : List (Nat × Nat)} {bad : Nat × Nat} {lo hi : Nat}
    (h : Clear done lo hi) (hbad : bad.2 ≤ lo ∨ hi ≤ bad.1) : Clear (done ++ [bad]) lo hi := by
  intro x hx hx' hb
  obtain hb | ⟨r, hr, hr1, hr2⟩ := bad_append.mp hb
  · exact h x hx hx' hb
  · rw [List.mem_singleton.mp hr] at hr1 hr2
    omega

theorem Clear.mono {regions : List (Nat × Nat)} {lo hi lo' hi' : Nat} (h : Clear regions lo hi)
    (hlo : lo ≤ lo') (hhi : hi' ≤ hi) : Clear regions lo' hi' :=
  fun x hx hx' => h x (by omega) (by omega)

/-- A region that begins in the request, or before it and ends in it, becomes the
last bad one. -/
theorem Scanned.meet {done rest : List (Nat × Nat)} {bad : Nat × Nat} {address stop : Nat}
    {last : Option (Nat × Nat)} {reads : List (Nat × Nat)}
    (hsep : Separated (done ++ bad :: rest))
    (h : Scanned done (bad :: rest) address stop last reads) (hstart : address ≤ bad.1)
    (hstop : bad.1 < stop) (hpart : ¬ (bad.1 ≤ address ∧ stop ≤ bad.2)) :
    Scanned (done ++ [bad]) rest address stop (some bad)
      (match last with
        | none => if address = bad.1 then reads else reads ++ [(address, bad.1)]
        | some last => reads ++ [(last.2, bad.1)]) := by
  have hne := hsep.nonempty bad (by simp)
  have hdone : Clear done bad.2 stop := by
    cases last with
    | none => exact h.2.mono (by omega) (Nat.le_refl _)
    | some last =>
      have hlt : last.2 < bad.1 :=
        (List.pairwise_append.mp hsep.apart).2.2 last h.1 bad (by simp)
      exact h.2.2.2.2.2.mono (by omega) (Nat.le_refl _)
  refine ⟨by simp, by omega, hstop, hpart, ?_, hdone.snoc (.inl (Nat.le_refl _))⟩
  rw [Nat.max_eq_right hstart, List.append_assoc, List.singleton_append]
  cases last with
  | none =>
    obtain ⟨rfl, hclear⟩ := h
    dsimp only
    split
    · rename_i heq
      rw [← heq]
      exact .nil address
    · refine .cons (Nat.le_refl _) (by dsimp only; omega) ?_ ?_ (.nil _)
      · intro x hx hx'
        omega
      · exact hsep.clear_rest (hclear.mono (Nat.le_refl _) (by omega))
  | some last =>
    obtain ⟨hmem, hlast, hlt, _, htiles, hclear⟩ := h
    have hlb : last.2 < bad.1 :=
      (List.pairwise_append.mp hsep.apart).2.2 last hmem bad (by simp)
    have hl := hsep.nonempty last (List.mem_append_left _ hmem)
    refine htiles.snoc (by dsimp only; omega) hlb ?_ ?_
    · intro x hx hx'
      exact ⟨last, List.mem_append_left _ hmem, by omega, hx'⟩
    · exact hsep.clear_rest (hclear.mono (Nat.le_refl _) (by omega))

/-- A region that begins before the request and ends in it: the first one to matter. -/
theorem Scanned.enter {done rest : List (Nat × Nat)} {bad : Nat × Nat} {address stop : Nat}
    {last : Option (Nat × Nat)} {reads : List (Nat × Nat)}
    (hsep : Separated (done ++ bad :: rest))
    (h : Scanned done (bad :: rest) address stop last reads) (hstart : bad.1 < address)
    (hend : address < bad.2) (hstop : bad.2 < stop) :
    Scanned (done ++ [bad]) rest address stop (some bad) reads := by
  cases last with
  | none =>
    obtain ⟨rfl, hclear⟩ := h
    refine ⟨by simp, hend, by omega, by omega, ?_, ?_⟩
    · rw [Nat.max_eq_left (Nat.le_of_lt hstart)]
      exact .nil address
    · exact (hclear.mono (by omega) (Nat.le_refl _)).snoc (.inl (Nat.le_refl _))
  | some last =>
    have hlt : last.2 < bad.1 :=
      (List.pairwise_append.mp hsep.apart).2.2 last h.1 bad (by simp)
    have hlast := h.2.1
    omega

/-- A region that has no byte in the request changes nothing. -/
theorem Scanned.pass {done rest : List (Nat × Nat)} {bad : Nat × Nat} {address stop : Nat}
    {last : Option (Nat × Nat)} {reads : List (Nat × Nat)}
    (h : Scanned done (bad :: rest) address stop last reads)
    (hout : bad.2 ≤ address ∨ stop ≤ bad.1) :
    Scanned (done ++ [bad]) rest address stop last reads := by
  cases last with
  | none => exact ⟨h.1, h.2.snoc hout⟩
  | some last =>
    obtain ⟨hmem, hlast, hlt, hpart, htiles, hclear⟩ := h
    refine ⟨List.mem_append_left _ hmem, hlast, hlt, hpart, by simpa using htiles, ?_⟩
    exact hclear.snoc (by omega)

/-- What the loop ends with. -/
def Cut (regions : List (Nat × Nat)) (address stop : Nat) :
    Option (Option (Nat × Nat) × List (Nat × Nat)) → Prop
  | none => Blank regions address stop
  | some (last, reads) => Scanned regions [] address stop last reads

theorem scanRegions_cut (done rest : List (Nat × Nat)) (hsep : Separated (done ++ rest))
    {address length : Nat} {last : Option (Nat × Nat)} {reads : List (Nat × Nat)}
    (h : Scanned done rest address (address + length) last reads) :
    Cut (done ++ rest) address (address + length) (scanRegions address length rest last reads) := by
  induction rest generalizing done last reads with
  | nil =>
    rw [List.append_nil]
    exact h
  | cons bad rest ih =>
    have happ : done ++ bad :: rest = done ++ [bad] ++ rest := by simp
    have hsep' : Separated (done ++ [bad] ++ rest) := happ ▸ hsep
    have hne := hsep.nonempty bad (by simp)
    unfold scanRegions
    by_cases hall : bad.1 ≤ address ∧ address + length ≤ bad.2
    · rw [if_pos hall]
      intro x hx hx'
      exact ⟨bad, by simp, by omega, by omega⟩
    rw [if_neg hall, happ]
    by_cases hin : address ≤ bad.1 ∧ bad.1 < address + length
    · rw [if_pos hin]
      have hmeet := h.meet hsep hin.1 hin.2 hall
      cases last with
      | none => exact ih _ hsep' hmeet
      | some last => exact ih _ hsep' hmeet
    rw [if_neg hin]
    by_cases hend : address < bad.2 ∧ bad.2 < address + length
    · rw [if_pos hend]
      exact ih _ hsep' (h.enter hsep (by omega) hend.1 hend.2)
    · rw [if_neg hend]
      exact ih _ hsep' (h.pass (by omega))

theorem scanRegions_all {regions : List (Nat × Nat)} (hsep : Separated regions)
    (address length : Nat) :
    Cut regions address (address + length) (scanRegions address length regions none []) := by
  refine scanRegions_cut [] regions hsep ⟨rfl, ?_⟩
  intro x _ _ hx
  obtain ⟨r, hr, -⟩ := hx
  cases hr

/-! ## The reads -/

/-- What a read makes the sensor do: it asks for just these bytes without a cache,
and for the chunks that hold them with one. -/
def Wants (timeout : Int) (read : Nat × Nat) (r : Request) : Prop :=
  timeout ≤ 0 ∧ r.address = read.1 ∧ r.length = (read.2 : Int) - read.1 ∨
    0 < timeout ∧ ForChunk read.1 (read.2 - read.1) r

/-- A read that the sensor serves whole or not at all. -/
def OneChunk (timeout : Int) (read : Nat × Nat) : Prop :=
  timeout ≤ 0 ∨ read.1 / cacheChunk = (read.2 - 1) / cacheChunk

section Reads
variable {w : World} {mem : Nat → UInt8} {m : MemorySensor} {regions : List (Nat × Nat)}

/-- One read: it gets its bytes if every request for it is answered, and nothing if
one is not and a single chunk is enough. -/
theorem readCached_read (hw : Truthful mem w) (hc : CacheOf mem m) (read : Nat × Nat)
    (hne : read.1 < read.2) :
    ∃ made served, Progress mem w m (readCached w m read.1 (read.2 - read.1)).2 made ∧
      (readCached w m read.1 (read.2 - read.1)).1 = window mem read.1 served ∧
      (∀ r ∈ made, Wants m.cacheTimeout read r) ∧
      ((∀ r ∈ made, r.answered = true) → served = read.2 - read.1) ∧
      ((∃ r ∈ made, r.answered = false) → OneChunk m.cacheTimeout read → served = 0) := by
  obtain ⟨made, served, hp, heq, hhow⟩ := readCached_progress hw hc read.1 (read.2 - read.1)
  have hlen : ((read.2 : Int) - read.1).toNat = read.2 - read.1 := by omega
  rw [hlen] at hhow
  refine ⟨made, served, hp, heq, ?_, ?_, ?_⟩
  · intro r hr
    obtain ⟨h0, ok, rfl, -⟩ | ⟨h0, hfor, -⟩ := hhow
    · rw [List.mem_singleton.mp hr]
      exact .inl ⟨h0, rfl, rfl⟩
    · exact .inr ⟨h0, hfor r hr⟩
  · intro hans
    obtain ⟨-, ok, rfl, rfl⟩ | ⟨-, -, ⟨h, -⟩ | ⟨-, -, r, hr, hfail⟩⟩ := hhow
    · rw [show ok = true from hans _ (List.mem_singleton_self _), if_pos rfl]
    · exact h
    · rw [hans r hr] at hfail
      cases hfail
  · rintro ⟨r, hr, hfail⟩ hone
    obtain ⟨-, ok, rfl, rfl⟩ | ⟨h0, -, ⟨-, hans⟩ | ⟨hless, hstart, -⟩⟩ := hhow
    · rw [List.mem_singleton.mp hr] at hfail
      rw [show ok = false from hfail]
      rfl
    · rw [hans r hr] at hfail
      cases hfail
    · obtain hstart | hstart := hstart
      · exact hstart
      · obtain hone | hone := hone
        · omega
        · unfold cacheChunk at hone hstart
          omega

/-- The loop over the reads of a tiling. -/
theorem issueReads_progress (hw : Truthful mem w) (hc : CacheOf mem m) {p q : Nat}
    {reads : List (Nat × Nat)} (ht : Tiles regions p reads q) (x : Nat) (data : List UInt8) :
    ∃ made, Progress mem w m (issueReads w m (some (x, p)) reads data).2 made ∧
      (∀ r ∈ made, ∃ read ∈ reads, Wants m.cacheTimeout read r) ∧
      ((∀ r ∈ made, r.answered = true) → (issueReads w m (some (x, p)) reads data).1 =
        some (data ++ window (masked mem regions) p (q - p))) ∧
      ((∃ r ∈ made, r.answered = false) → (∀ read ∈ reads, OneChunk m.cacheTimeout read) →
        (issueReads w m (some (x, p)) reads data).1 = none) := by
  induction ht generalizing m x data with
  | nil p =>
    refine ⟨[], Progress.refl hc, by simp, fun _ => ?_, by simp⟩
    simp [issueReads]
  | @cons p q read reads start nonempty blank clear rest ih =>
    obtain ⟨made, served, hp, heq, hwants, hfull, hnone⟩ := readCached_read hw hc read nonempty
    unfold issueReads
    dsimp only
    generalize readCached w m read.1 (read.2 - read.1) = answer at hp heq
    obtain ⟨bytes, t⟩ := answer
    dsimp only at heq
    subst heq
    cases served with
    | zero =>
      refine ⟨made, hp, fun r hr => ⟨read, by simp, hwants r hr⟩, fun hans => ?_, fun _ _ => rfl⟩
      have := hfull hans
      omega
    | succ served =>
      rw [window_succ]
      dsimp only
      rw [← window_succ]
      obtain ⟨made', hp', hwants', hfull', hnone'⟩ :=
        ih hp.cache read.1 (data ++ zeros (read.1 - p) ++ window mem read.1 (served + 1))
      rw [hp.timeout] at hwants' hnone'
      refine ⟨made ++ made', hp.trans hp', ?_, ?_, ?_⟩
      · intro r hr
        cases List.mem_append.mp hr with
        | inl hr => exact ⟨read, by simp, hwants r hr⟩
        | inr hr =>
          obtain ⟨read', hread', hw'⟩ := hwants' r hr
          exact ⟨read', List.mem_cons_of_mem _ hread', hw'⟩
      · intro hans
        rw [hfull' fun r hr => hans r (List.mem_append_right _ hr),
          hfull fun r hr => hans r (List.mem_append_left _ hr),
          ← window_tile mem start nonempty blank clear rest.le]
        simp only [List.append_assoc]
      · rintro ⟨r, hr, hfail⟩ hone
        cases List.mem_append.mp hr with
        | inl hr =>
          have := hnone ⟨r, hr, hfail⟩ (hone read (by simp))
          omega
        | inr hr => exact hnone' ⟨r, hr, hfail⟩ fun read' h' => hone read' (by simp [h'])

/-- The reads of a request that meets a bad region, the final one included. -/
theorem Scanned.final {address stop : Nat} {last : Nat × Nat} {reads : List (Nat × Nat)}
    (hsep : Separated regions) (h : Scanned regions [] address stop (some last) reads) :
    ∃ first rest q, (if last.2 < stop then reads ++ [(last.2, stop)] else reads) = first :: rest ∧
      Tiles regions address (first :: rest) q ∧ q ≤ stop ∧ Blank regions q stop := by
  obtain ⟨hmem, hlast, hlt, hpart, htiles, hclear⟩ := h
  rw [List.append_nil] at htiles
  have hne := hsep.nonempty last hmem
  split
  · rename_i hmore
    have htiles' : Tiles regions address (reads ++ [(last.2, stop)]) stop := by
      refine htiles.snoc (by dsimp only; omega) hmore ?_ ?_
      · intro x hx hx'
        exact ⟨last, hmem, by omega, hx'⟩
      · exact hclear
    obtain ⟨first, rest, heq⟩ := List.exists_cons_of_ne_nil
      (List.append_ne_nil_of_right_ne_nil reads (List.cons_ne_nil (last.2, stop) []))
    refine ⟨first, rest, stop, heq, heq ▸ htiles', Nat.le_refl _, fun x hx hx' => ?_⟩
    omega
  · rename_i hmore
    generalize hq : max address last.1 = q at htiles
    cases reads with
    | nil =>
      cases htiles
      omega
    | cons first rest =>
      refine ⟨first, rest, q, rfl, htiles, by omega, fun x hx hx' => ?_⟩
      exact ⟨last, hmem, by omega, by omega⟩

/-- Starting with the zeros before the first read is the same as a gap before it. -/
theorem issueReads_first (w : World) (m : MemorySensor) (address x : Nat) (first : Nat × Nat)
    (rest : List (Nat × Nat)) :
    issueReads w m none (first :: rest) (zeros (first.1 - address)) =
      issueReads w m (some (x, address)) (first :: rest) [] := by
  simp only [issueReads, zeros, List.replicate_zero, List.append_nil, List.nil_append]

/-- What a read of the request `[address, address + length)` does: it asks only for
parts that are clear, and the result is memory with the bad bytes blanked if all
is answered. If something is not and the request lies in one chunk, the result is
empty where no byte is bad and `None` otherwise. -/
structure Reads (mem : Nat → UInt8) (regions : List (Nat × Nat)) (timeout : Int)
    (address length : Nat) (made : List Request)
    (result : Except PyError (Option (List UInt8))) : Prop where
  parts : ∀ r ∈ made, ∃ part : Nat × Nat, address ≤ part.1 ∧ part.1 < part.2 ∧
    part.2 ≤ address + length ∧ Clear regions part.1 part.2 ∧ Wants timeout part r
  answered : (∀ r ∈ made, r.answered = true) →
    result = .ok (some (window (masked mem regions) address length))
  failed : (∃ r ∈ made, r.answered = false) → OneChunk timeout (address, address + length) →
    (Clear regions address (address + length) → result = .ok (some [])) ∧
      (¬ Clear regions address (address + length) → result = .ok none)

/-- A request without a bad byte goes to `_read_cached` as it is. -/
theorem reads_clear (hw : Truthful mem w) (hc : CacheOf mem m) {address length : Nat}
    (hlen : 1 ≤ length) (hclear : Clear regions address (address + length)) :
    ∃ made, Progress mem w m (readCached w m address length).2 made ∧
      Reads mem regions m.cacheTimeout address length made
        (.ok (some (readCached w m address length).1)) := by
  obtain ⟨made, served, hp, heq, hwants, hfull, hnone⟩ :=
    readCached_read hw hc (address, address + length) (by dsimp only; omega)
  have hcast : ((address + length : Nat) : Int) - address = length := by omega
  dsimp only at hp heq hwants hfull hnone
  rw [hcast] at hp heq
  rw [heq]
  refine ⟨made, hp, fun r hr => ?_, fun hans => ?_, fun hfail hone => ⟨fun _ => ?_, ?_⟩⟩
  · exact ⟨(address, address + length), Nat.le_refl _, by dsimp only; omega, Nat.le_refl _,
      hclear, hwants r hr⟩
  · rw [hfull hans, Nat.add_sub_cancel_left, window_clear hclear]
  · rw [hnone hfail hone]
    rfl
  · exact fun hnot => (hnot hclear).elim

/-- A request with good and bad bytes goes through the loop over its reads; zeros
make up for what is missing at the end. -/
theorem reads_tiles (hw : Truthful mem w) (hc : CacheOf mem m) {address length q : Nat}
    {reads : List (Nat × Nat)} (ht : Tiles regions address reads q) (hq : q ≤ address + length)
    (hblank : Blank regions q (address + length))
    (hbad : ¬ Clear regions address (address + length)) :
    ∃ made, Progress mem w m (issueReads w m (some (0, address)) reads []).2 made ∧
      Reads mem regions m.cacheTimeout address length made
        (.ok ((issueReads w m (some (0, address)) reads []).1.map
          fun data => data ++ zeros (length - data.length))) := by
  have hmem := ht.mem
  have hle := ht.le
  obtain ⟨made, hp, hwants, hfull, hnone⟩ := issueReads_progress hw hc ht 0 []
  refine ⟨made, hp, fun r hr => ?_, fun hans => ?_, fun hfail hone => ⟨?_, fun _ => ?_⟩⟩
  · obtain ⟨part, hpart, hw'⟩ := hwants r hr
    obtain ⟨h1, h2, h3, h4⟩ := hmem part hpart
    exact ⟨part, h1, h2, by omega, h4, hw'⟩
  · rw [hfull hans, Option.map_some, List.nil_append, length_window,
      window_pad mem hle hq hblank]
  · exact fun hclear => (hbad hclear).elim
  · rw [hnone hfail]
    · rfl
    intro part hpart
    obtain ⟨h1, h2, h3, -⟩ := hmem part hpart
    obtain hone | hone := hone
    · exact .inl hone
    · right
      unfold cacheChunk at hone ⊢
      dsimp only at hone
      omega

/-- `read`, when the loop over the regions has cut the request as separated regions
demand. -/
theorem read_of_cut (hw : Truthful mem w) (hc : CacheOf mem m) (hsep : Separated regions)
    {address length : Nat} (hlen : 1 ≤ length)
    (hcut : Cut regions address (address + length)
      (scanRegions address length m.badMemRegions none [])) :
    ∃ made, Progress mem w m (read w m address length).2 made ∧
      Reads mem regions m.cacheTimeout address length made (read w m address length).1 := by
  unfold Sensor.read
  generalize scanRegions address length m.badMemRegions none [] = result at hcut
  cases result with
  | none =>
    refine ⟨[], Progress.refl hc, by simp, fun _ => ?_, by simp⟩
    rw [window_blank hcut]
  | some result =>
    obtain ⟨last, reads⟩ := result
    cases last with
    | none => exact reads_clear hw hc hlen hcut.2
    | some last =>
      have hbad : ¬ Clear regions address (address + length) := by
        intro hclear
        obtain ⟨hmem, hlast, hlt, -⟩ := hcut
        have hne := hsep.nonempty last hmem
        exact hclear (max address last.1) (by omega) (by omega) ⟨last, hmem, by omega, by omega⟩
      obtain ⟨first, rest, q, hreads, htiles, hq, hblank⟩ := hcut.final hsep
      obtain ⟨made, hp, hreads'⟩ := reads_tiles hw hc htiles hq hblank hbad
      dsimp only
      rw [hreads]
      dsimp only
      rw [issueReads_first w m address 0]
      generalize issueReads w m (some (0, address)) (first :: rest) [] = answer at hp hreads' ⊢
      obtain ⟨data, t⟩ := answer
      cases data <;> exact ⟨made, hp, hreads'⟩

theorem read_progress (hw : Truthful mem w) (hc : CacheOf mem m)
    (hsep : Separated m.badMemRegions) {address length : Nat} (hlen : 1 ≤ length) :
    ∃ made, Progress mem w m (read w m address length).2 made ∧
      Reads mem m.badMemRegions m.cacheTimeout address length made
        (read w m address length).1 :=
  read_of_cut hw hc hsep hlen (scanRegions_all hsep address length)

end Reads

end LoPhi.Memory.Holes
