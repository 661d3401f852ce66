import Mathlib.Data.Int.ConditionallyCompleteOrder
import Mathlib.Order.ConditionallyCompleteLattice.Basic
import LoPhi.Lib.Machine
import LoPhi.Memory.Cached

/-! # How old a cached byte can be

Memory changes while the sensor is used: `memAt t` is its content at interaction `t` with the
world. An entry of the cache is dated with the clock at the start of the call that read it,
before the sensor was asked, so a byte is never older than the date of its entry says. -/

namespace LoPhi.Memory.Ageing
open LoPhi.Lib.Machine LoPhi.Lib.Window LoPhi.Memory.Sensor LoPhi.Memory.Cached

variable {w : World} {memAt : Nat → Nat → UInt8} {m : MemorySensor} {now : Int}

/-- Every request is answered with the bytes memory holds at that moment. -/
def Current (memAt : Nat → Nat → UInt8) (w : World) : Prop :=
  ∀ t address length, w.sensor t address length = some (window (memAt t) address length.toNat)

/-- Every cached chunk was read at an earlier moment, and is not dated later than that. -/
def Dated (memAt : Nat → Nat → UInt8) (w : World) (m : MemorySensor) : Prop :=
  ∀ k entry time, m.cache k = some (entry, time) →
    ∃ t < m.ticks, entry = window (memAt t) (k * cacheChunk) cacheChunk ∧ time ≤ w.clock t

/-- A part of a call that began at `now`: interactions are added, the timeout stays, and the
cache stays dated. -/
structure Later (memAt : Nat → Nat → UInt8) (w : World) (m m' : MemorySensor) : Prop where
  ticks : m.ticks ≤ m'.ticks
  timeout : m'.cacheTimeout = m.cacheTimeout
  dated : Dated memAt w m'

theorem Later.refl (h : Dated memAt w m) : Later memAt w m m := ⟨Nat.le_refl _, rfl, h⟩

theorem Later.trans {m' m'' : MemorySensor} (h : Later memAt w m m')
    (h' : Later memAt w m' m'') : Later memAt w m m'' :=
  ⟨Nat.le_trans h.ticks h'.ticks, h'.timeout.trans h.timeout, h'.dated⟩

/-- The bytes from `address` on, each as memory held it at a moment after `since`. -/
def HeldSince (memAt : Nat → Nat → UInt8) (w : World) (since : Int) (ticks : Nat)
    (address : Nat) (data : List UInt8) : Prop :=
  ∀ i < data.length, ∃ t < ticks, data[i]? = some (memAt t (address + i)) ∧ since < w.clock t

/-! ## One chunk -/

/-- The chunk is read at the present moment. -/
theorem fetchChunk_current (hw : Current memAt w) (hd : Dated memAt w m)
    (hnow : now ≤ w.clock m.ticks) (k : Nat) :
    Later memAt w m (fetchChunk w now m k).2 ∧ m.ticks < (fetchChunk w now m k).2.ticks ∧
      (fetchChunk w now m k).1 = some (window (memAt m.ticks) (k * cacheChunk) cacheChunk) := by
  have hread : readFromSensor w m (k * cacheChunk) cacheChunk =
      (some (window (memAt m.ticks) (k * cacheChunk) cacheChunk),
        (readFromSensor w m (k * cacheChunk) cacheChunk).2) := by
    refine Prod.ext ?_ rfl
    show w.sensor m.ticks (k * cacheChunk) cacheChunk = _
    rw [hw, Int.toNat_natCast]
  unfold fetchChunk
  rw [hread]
  refine ⟨⟨Nat.le_succ _, rfl, ?_⟩, Nat.lt_succ_self _, rfl⟩
  intro j entry time hj
  simp only at hj
  split at hj
  · rename_i hjk
    cases hj
    exact ⟨m.ticks, Nat.lt_succ_self _, by rw [hjk], hnow⟩
  · obtain ⟨t, ht, hentry, htime⟩ := hd j entry time hj
    exact ⟨t, Nat.lt_succ_of_lt ht, hentry, htime⟩

/-- An entry that has not expired is young enough, and so is one just read. -/
theorem chunkEntry_young (hw : Current memAt w) (hd : Dated memAt w m)
    (hpos : 0 < m.cacheTimeout) (hnow : now ≤ w.clock m.ticks) (k : Nat) :
    ∃ t < (chunkEntry w now m k).2.ticks, Later memAt w m (chunkEntry w now m k).2 ∧
      (chunkEntry w now m k).1 = some (window (memAt t) (k * cacheChunk) cacheChunk) ∧
      now - m.cacheTimeout < w.clock t := by
  obtain ⟨hlater, hticks, hfetch⟩ := fetchChunk_current hw hd hnow k
  unfold chunkEntry
  split
  · exact ⟨m.ticks, hticks, hlater, hfetch, by omega⟩
  · rename_i entry time hk
    split
    · exact ⟨m.ticks, hticks, hlater, hfetch, by omega⟩
    · rename_i hfresh
      obtain ⟨t, ht, hentry, htime⟩ := hd k entry time hk
      exact ⟨t, ht, Later.refl hd, by rw [hentry], by omega⟩

/-! ## A call -/

theorem heldSince_window {since : Int} {t ticks address n : Nat} (ht : t < ticks)
    (hsince : since < w.clock t) :
    HeldSince memAt w since ticks address (window (memAt t) address n) := by
  intro i hi
  exact ⟨t, ht, getElem?_window (by simpa using hi), hsince⟩

theorem HeldSince.mono {since : Int} {ticks ticks' address : Nat} {data : List UInt8}
    (h : HeldSince memAt w since ticks address data) (hle : ticks ≤ ticks') :
    HeldSince memAt w since ticks' address data := by
  intro i hi
  obtain ⟨t, ht, hbyte, hsince⟩ := h i hi
  exact ⟨t, by omega, hbyte, hsince⟩

/-- Bytes and those that follow them. -/
theorem HeldSince.append {since : Int} {ticks address : Nat} {data more : List UInt8}
    (h : HeldSince memAt w since ticks address data)
    (hmore : more ≠ [] → HeldSince memAt w since ticks (address + data.length) more) :
    HeldSince memAt w since ticks address (data ++ more) := by
  intro i hi
  rw [List.length_append] at hi
  by_cases hin : i < data.length
  · rw [List.getElem?_append_left hin]
    exact h i hin
  · have hne : more ≠ [] := by
      rintro rfl
      simp only [List.length_nil] at hi
      omega
    obtain ⟨t, ht, hbyte, hsince⟩ := hmore hne (i - data.length) (by omega)
    refine ⟨t, ht, ?_, hsince⟩
    rw [List.getElem?_append_right (by omega), hbyte]
    congr 2
    omega

/-- The loop serves every byte that was asked for, each from a chunk that is young enough. -/
theorem readChunks_young (hw : Current memAt w) {fuel : Nat} (address length : Nat)
    (hfuel : length ≤ fuel) (hd : Dated memAt w m) (hpos : 0 < m.cacheTimeout)
    (hnow : ∀ t, m.ticks ≤ t → now ≤ w.clock t) (datas : List UInt8) :
    ∃ served, (readChunks w now fuel m address length datas).1 = datas ++ served ∧
      served.length = length ∧ Later memAt w m (readChunks w now fuel m address length datas).2 ∧
      HeldSince memAt w (now - m.cacheTimeout)
        (readChunks w now fuel m address length datas).2.ticks address served := by
  induction fuel generalizing m address length datas with
  | zero =>
    obtain rfl : length = 0 := by omega
    exact ⟨[], (List.append_nil _).symm, rfl, Later.refl hd, by simp [HeldSince]⟩
  | succ fuel ih =>
    by_cases h0 : length = 0
    · subst h0
      rw [readChunks_empty]
      exact ⟨[], (List.append_nil _).symm, rfl, Later.refl hd, by simp [HeldSince]⟩
    obtain ⟨t, ht, hlater, hentry, hyoung⟩ :=
      chunkEntry_young hw hd hpos (hnow _ (Nat.le_refl _)) (address / cacheChunk)
    generalize hm' : (chunkEntry w now m (address / cacheChunk)).2 = m' at ht hlater
    rw [readChunks_turn h0 (Prod.ext hentry hm')]
    have hin := inChunk_pos address
    obtain ⟨served, heq, hlen, hlater', hheld⟩ :=
      ih (address + inChunk address) (length - inChunk address) (by omega) hlater.dated
        (by rw [hlater.timeout]; exact hpos)
        (fun t ht => hnow t (Nat.le_trans hlater.ticks ht))
        (datas ++ window (memAt t) address (min (inChunk address) length))
    rw [hlater.timeout] at hheld
    refine ⟨window (memAt t) address (min (inChunk address) length) ++ served, ?_, ?_,
      hlater.trans hlater', ?_⟩
    · rw [heq, List.append_assoc]
    · rw [List.length_append, length_window, hlen]
      omega
    · refine ((heldSince_window ht hyoung).mono hlater'.ticks).append ?_
      intro hne
      have hrest : address + min (inChunk address) length = address + inChunk address := by
        have hpos := List.length_pos_iff.mpr hne
        omega
      rw [length_window, hrest]
      exact hheld

/-- `_read_cached` as a step of the object. -/
def cachedStep (w : World) (m : MemorySensor) (request : Nat × Nat) :
    MemorySensor × List UInt8 :=
  ((readCached w m request.1 request.2).2, (readCached w m request.1 request.2).1)

theorem readCached_young (hw : Current memAt w) (hclock : Monotone w.clock)
    (hd : Dated memAt w m) (hpos : 0 < m.cacheTimeout) (address length : Nat) :
    (readCached w m address length).1.length = length ∧
      Later memAt w m (readCached w m address length).2 ∧
      HeldSince memAt w (w.clock m.ticks - m.cacheTimeout)
        (readCached w m address length).2.ticks address (readCached w m address length).1 := by
  have hd' : Dated memAt w { m with ticks := m.ticks + 1 } := by
    intro k entry time hk
    obtain ⟨t, ht, hentry, htime⟩ := hd k entry time hk
    exact ⟨t, Nat.lt_succ_of_lt ht, hentry, htime⟩
  obtain ⟨served, heq, hlen, hlater, hheld⟩ := readChunks_young hw address length (Nat.le_refl _)
    hd' hpos (fun t ht => hclock (Nat.le_of_succ_le ht)) []
  unfold readCached
  rw [if_neg (by omega), Int.toNat_natCast]
  rw [List.nil_append] at heq
  dsimp only
  rw [heq]
  exact ⟨hlen, ⟨Nat.le_of_succ_le hlater.ticks, hlater.timeout, hlater.dated⟩, hheld⟩

/-- **The cache is transparent and bounded in age.** From an empty cache, with a clock that does
not go back, every call gives exactly the bytes asked for: those of a direct read if memory does
not change, and otherwise each as memory held it at a moment that is less than the timeout
before the start of the call. -/
theorem cached_reads_young (w : World) (memAt : Nat → Nat → UInt8) (m : MemorySensor)
    (hw : Current memAt w) (hclock : Monotone w.clock) (hempty : m.cache = fun _ => none)
    (hpos : 0 < m.cacheTimeout) (calls : List (Nat × Nat)) :
    ∀ k request, calls[k]? = some request →
      ∃ data, (outputs (cachedStep w) m calls)[k]? = some data ∧ data.length = request.2 ∧
        ((∀ t, memAt t = memAt 0) →
          (readFromSensor w (stateAt (cachedStep w) m calls k) request.1 request.2).1 =
            some data) ∧
        ∀ i < request.2, ∃ t < (stateAt (cachedStep w) m calls (k + 1)).ticks,
          data[i]? = some (memAt t (request.1 + i)) ∧
          w.clock (stateAt (cachedStep w) m calls k).ticks - m.cacheTimeout < w.clock t := by
  have hinv : ∀ k, k ≤ calls.length →
      Dated memAt w (stateAt (cachedStep w) m calls k) ∧
        (stateAt (cachedStep w) m calls k).cacheTimeout = m.cacheTimeout := by
    apply stateAt_invariant (fun s => Dated memAt w s ∧ s.cacheTimeout = m.cacheTimeout)
    · refine ⟨?_, rfl⟩
      intro k entry time hk
      rw [hempty] at hk
      cases hk
    · rintro k request hk ⟨hd, htimeout⟩
      rw [stateAt_succ hk]
      obtain ⟨-, hlater, -⟩ :=
        readCached_young hw hclock hd (by rw [htimeout]; exact hpos) request.1 request.2
      exact ⟨hlater.dated, hlater.timeout.trans htimeout⟩
  intro k request hk
  obtain ⟨hd, htimeout⟩ := hinv k (Nat.le_of_lt (List.getElem?_eq_some_iff.mp hk).1)
  obtain ⟨hlen, -, hheld⟩ :=
    readCached_young hw hclock hd (by rw [htimeout]; exact hpos) request.1 request.2
  rw [htimeout] at hheld
  rw [outputs_get hk, stateAt_succ hk]
  refine ⟨_, rfl, hlen, ?_, ?_⟩
  · intro hsame
    show w.sensor _ request.1 request.2 = _
    rw [hw, Int.toNat_natCast]
    refine congrArg some (List.ext_getElem? fun i => ?_)
    by_cases hi : i < request.2
    · obtain ⟨t, -, hbyte, -⟩ := hheld i (by rw [hlen]; exact hi)
      rw [getElem?_window hi, show (cachedStep w _ request).2[i]? = _ from hbyte, hsame, hsame t]
    · rw [List.getElem?_eq_none (by simpa using hi),
        List.getElem?_eq_none (by rw [show (cachedStep w _ request).2.length = _ from hlen]; omega)]
  · intro i hi
    exact hheld i (by rw [hlen]; exact hi)

/-- Memory whose bytes all change at every interaction. -/
def restless (t address : Nat) : UInt8 := UInt8.ofNat (t + address)

/-- A clock that runs with the interactions, and a sensor that gives what memory holds. -/
def restlessWorld : World where
  clock t := t
  sensor t address length := some (window (restless t) address length.toNat)

/-- Two reads across the end of the first chunk, the second of them from the cache. -/
theorem cached_reads_young_twice :
    Monotone restlessWorld.clock ∧
      ∀ k request, [(7679, 2), (7678, 3)][k]? = some request →
        ∃ data,
          (outputs (cachedStep restlessWorld) { cacheTimeout := 10 }
            [(7679, 2), (7678, 3)])[k]? = some data ∧
          data.length = request.2 ∧
          ((∀ t, restless t = restless 0) →
            (readFromSensor restlessWorld (stateAt (cachedStep restlessWorld)
              { cacheTimeout := 10 } [(7679, 2), (7678, 3)] k) request.1 request.2).1 =
              some data) ∧
          ∀ i < request.2, ∃ t < (stateAt (cachedStep restlessWorld) { cacheTimeout := 10 }
              [(7679, 2), (7678, 3)] (k + 1)).ticks,
            data[i]? = some (restless t (request.1 + i)) ∧
            restlessWorld.clock (stateAt (cachedStep restlessWorld) { cacheTimeout := 10 }
              [(7679, 2), (7678, 3)] k).ticks - 10 < restlessWorld.clock t := by
  have hclock : Monotone restlessWorld.clock := fun a b h => Int.ofNat_le.mpr h
  exact ⟨hclock, cached_reads_young restlessWorld restless { cacheTimeout := 10 }
    (fun _ _ _ => rfl) hclock rfl (by decide) [(7679, 2), (7678, 3)]⟩

end LoPhi.Memory.Ageing
