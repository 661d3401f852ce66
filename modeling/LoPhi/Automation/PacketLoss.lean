import Mathlib.Data.Finset.Card
import Mathlib.Order.Interval.Finset.Nat

/-! # Counting lost packets

`PacketLossAnalyzer` watches the UDP packets of a sensor and takes the number of packets that
were lost from the gaps between the ids of their IP headers, a counter of 16 bits. -/

namespace LoPhi.Automation.PacketLoss

/-- The IP packet of a frame. The address is in the form of `inet_aton`. -/
structure IpPacket where
  src : List UInt8
  p : Nat
  id : UInt16
  deriving DecidableEq, Repr

/-- A captured frame: its ethernet type, its length and what it carries. -/
structure EthPacket where
  type : Nat
  length : Nat
  data : IpPacket
  deriving DecidableEq, Repr

/-- `dpkt.ethernet.ETH_TYPE_IP` and `dpkt.ip.IP_PROTO_UDP`. -/
def ethTypeIp : Nat := 0x0800

def ipProtoUdp : Nat := 17

/-- The variables of `run`. The last three are `return_values`. -/
structure Analyzer where
  lastId : Option Nat := none
  totalPackets : Nat := 0
  droppedPackets : Nat := 0
  total : Nat := 0
  dropped : Nat := 0
  dataReceived : Nat := 0
  deriving DecidableEq, Repr

/-- The packets that are taken to be lost between two ids, where any are. -/
def gap (lastId id : Nat) : Option Nat :=
  if lastId + 1 < id then some (id - lastId - 1)
  else if id < lastId ∧ 0 < id then some (id - 1 + (0xffff - lastId))
  else none

/-- A packet of the sensor. `total` is not updated when packets were lost. -/
def countPacket (s : Analyzer) (length id : Nat) : Analyzer :=
  let s := { s with
    dataReceived := s.dataReceived + length
    totalPackets := s.totalPackets + 1
    total := s.totalPackets + 1 }
  match s.lastId.bind fun lastId => gap lastId id with
  | none => { s with lastId := some id }
  | some dropped =>
    { s with
      droppedPackets := s.droppedPackets + dropped
      totalPackets := s.totalPackets + dropped
      dropped := s.droppedPackets + dropped
      lastId := some id }

variable (sensorIp : List UInt8)

/-- The packets that are looked at: UDP from the sensor. -/
def fromSensor (ip : IpPacket) : Prop := ip.src = sensorIp ∧ ip.p = ipProtoUdp

instance (ip : IpPacket) : Decidable (fromSensor sensorIp ip) :=
  inferInstanceAs (Decidable (_ ∧ _))

/-- The loop of `run` over the captured frames. -/
def run (s : Analyzer) : List EthPacket → Analyzer
  | [] => s
  | eth :: rest =>
    if eth.type ≠ ethTypeIp then run s rest
    else
      let s := if fromSensor sensorIp eth.data
        then countPacket s eth.length eth.data.id.toNat else s
      -- "DROPPED MORE THAN WE SAW!"
      if s.totalPackets < s.droppedPackets then s else run s rest

/-- The ids of the packets that are looked at. -/
def ids (frames : List EthPacket) : List UInt16 :=
  frames.filterMap fun eth =>
    if eth.type = ethTypeIp ∧ fromSensor sensorIp eth.data then some eth.data.id else none

/-! ## The loop over the ids -/

/-- What decides about the count: the last id and the count itself. -/
def tallyId (t : Option Nat × Nat) (id : UInt16) : Option Nat × Nat :=
  (some id.toNat, t.2 + ((t.1.bind fun lastId => gap lastId id.toNat).getD 0))

variable {sensorIp}

theorem countPacket_tally (s : Analyzer) (length : Nat) (id : UInt16) :
    ((countPacket s length id.toNat).lastId, (countPacket s length id.toNat).droppedPackets) =
      tallyId (s.lastId, s.droppedPackets) id := by
  unfold countPacket tallyId
  dsimp only
  cases s.lastId.bind fun lastId => gap lastId id.toNat with
  | none => rfl
  | some dropped => rfl

/-- The total counts the lost packets too, so that the loop never breaks off. -/
theorem countPacket_le {s : Analyzer} (h : s.droppedPackets ≤ s.totalPackets) (length id : Nat) :
    (countPacket s length id).droppedPackets ≤ (countPacket s length id).totalPackets := by
  unfold countPacket
  dsimp only
  cases s.lastId.bind fun lastId => gap lastId id with
  | none => exact Nat.le_succ_of_le h
  | some dropped =>
    dsimp only
    omega

theorem run_tally (sensorIp : List UInt8) {s : Analyzer} (h : s.droppedPackets ≤ s.totalPackets)
    (frames : List EthPacket) :
    ((run sensorIp s frames).lastId, (run sensorIp s frames).droppedPackets) =
      (ids sensorIp frames).foldl tallyId (s.lastId, s.droppedPackets) := by
  induction frames generalizing s with
  | nil => rfl
  | cons eth rest ih =>
    unfold run ids
    rw [List.filterMap_cons]
    by_cases htype : eth.type = ethTypeIp
    · rw [if_neg (not_not.mpr htype)]
      by_cases hsensor : fromSensor sensorIp eth.data
      · have hle := countPacket_le h eth.length eth.data.id.toNat
        simp only [htype, hsensor, and_self, if_true]
        rw [if_neg (Nat.not_lt.mpr hle), ih hle, countPacket_tally, List.foldl_cons]
        rfl
      · simp only [hsensor, and_false, if_false]
        rw [if_neg (Nat.not_lt.mpr h), ih h]
        rfl
    · rw [if_pos htype, ih h]
      simp only [htype, false_and, if_false]
      rfl

/-! ## What the sensor sent -/

/-- The id of a packet, by its place in what the sensor sends. -/
def idOf (start : UInt16) (i : Nat) : UInt16 := start + UInt16.ofNat i

theorem toNat_idOf (start : UInt16) (i : Nat) :
    (idOf start i).toNat = (start.toNat + i) % 65536 := by
  unfold idOf
  rw [UInt16.toNat_add, UInt16.toNat_ofNat']
  omega

section Sent
variable (lost : Nat → Bool)

/-- The packets that arrive, of the first `n`. -/
def received (n : Nat) : List Nat := (List.range n).filter fun i => !lost i

/-- The packets that are lost after one that arrives and before one that arrives. -/
def lostBetween (n : Nat) : Finset Nat :=
  (Finset.range n).filter fun j =>
    lost j = true ∧ (∃ i < j, lost i = false) ∧ ∃ k < n, j < k ∧ lost k = false

/-- Fewer than 65535 packets in a row are lost. -/
def ShortLosses (n : Nat) : Prop := ∀ i, i + 65535 ≤ n → ∃ j < 65535, lost (i + j) = false

/-- Wherever the counter starts again between two packets that arrive, the packet before and the
packet after arrive. -/
def WrapsArrive (start : UInt16) (n : Nat) : Prop :=
  ∀ i, i + 1 < n → (idOf start i).toNat = 65535 → (∃ j ≤ i, lost j = false) →
    (∃ k < n, i < k ∧ lost k = false) → lost i = false ∧ lost (i + 1) = false

/-- The last packet of the first `n` that arrives. -/
structure IsLastReceived (n p : Nat) : Prop where
  lt : p < n
  arrives : lost p = false
  later : ∀ j, p < j → j < n → lost j = true

variable {lost} {start : UInt16} {n p : Nat}

theorem exists_isLastReceived {i : Nat} (hi : i < n) (h : lost i = false) :
    ∃ p, IsLastReceived lost n p := by
  induction n with
  | zero => omega
  | succ n ih =>
    cases hn : lost n with
    | false => exact ⟨n, Nat.lt_succ_self n, hn, fun j hj hj' => by omega⟩
    | true =>
      have hne : i ≠ n := fun heq => by
        rw [heq, hn] at h
        cases h
      obtain ⟨p, hlt, harrives, hlater⟩ := ih (by omega)
      refine ⟨p, by omega, harrives, fun j hj hj' => ?_⟩
      by_cases hjn : j = n
      · rw [hjn]
        exact hn
      · exact hlater j hj (by omega)

theorem gap_forward {lastId id : Nat} (h : lastId < id) :
    (gap lastId id).getD 0 = id - lastId - 1 := by
  unfold gap
  split
  · rfl
  · rw [if_neg (by omega), Option.getD_none]
    omega

/-- An id below the last one: one lost packet is forgotten, and after the id 0 all of them. -/
theorem gap_back {lastId id : Nat} (h : id < lastId) (htop : lastId ≤ 65535) :
    (gap lastId id).getD 0 = if id = 0 then 0 else id + 65534 - lastId := by
  unfold gap
  rw [if_neg (by omega)]
  split
  · rw [if_neg (by omega), Option.getD_some]
    omega
  · rw [if_pos (by omega), Option.getD_none]

/-- The gap between two ids of the counter, against the number of packets between them: it is
never more, and it is the same unless the counter starts again in between. -/
theorem gap_spec (start : UInt16) {q : Nat} (hpq : p < q) (hshort : q - p ≤ 65535) :
    (gap (idOf start p).toNat (idOf start q).toNat).getD 0 ≤ q - p - 1 ∧
      ((gap (idOf start p).toNat (idOf start q).toNat).getD 0 = q - p - 1 ↔
        ∀ i, p ≤ i → i < q → (idOf start i).toNat = 65535 → i = p ∧ q = p + 1) := by
  simp only [toNat_idOf]
  by_cases hwrap : (start.toNat + p) % 65536 + (q - p) ≤ 65535
  · -- The counter goes on from one packet to the other.
    have hid : (start.toNat + q) % 65536 = (start.toNat + p) % 65536 + (q - p) := by omega
    have hnone : ∀ i, p ≤ i → i < q → (start.toNat + i) % 65536 ≠ 65535 := by omega
    rw [gap_forward (by omega)]
    refine ⟨by omega, fun _ i hp hq hi => absurd hi (hnone i hp hq), fun _ => by omega⟩
  · -- It starts again, and the packet with the highest id is one of them.
    have hid : (start.toNat + q) % 65536 + 65536 = (start.toNat + p) % 65536 + (q - p) := by omega
    have htop : (start.toNat + (p + (65535 - (start.toNat + p) % 65536))) % 65536 = 65535 := by
      omega
    have hadjacent : (∀ i, p ≤ i → i < q → (start.toNat + i) % 65536 = 65535 →
        i = p ∧ q = p + 1) ↔ q = p + 1 := by
      constructor
      · intro h
        exact (h _ (by omega) (by omega) htop).2
      · intro h i hp hq _
        exact ⟨by omega, h⟩
    rw [hadjacent, gap_back (by omega) (by omega)]
    split <;> omega

/-! ### One more packet -/

theorem received_succ (n : Nat) :
    received lost (n + 1) = received lost n ++ if lost n then [] else [n] := by
  unfold received
  rw [List.range_succ, List.filter_append]
  cases hn : lost n with
  | false => simp [hn]
  | true => simp [hn]

section LostNext
variable (hn : lost n = true)
include hn

theorem lostBetween_lost : lostBetween lost (n + 1) = lostBetween lost n := by
  ext j
  simp only [lostBetween, Finset.mem_filter, Finset.mem_range]
  constructor
  · rintro ⟨-, hj, hbefore, k, hk, hjk, harrives⟩
    have hkn : k ≠ n := fun heq => by
      rw [heq, hn] at harrives
      cases harrives
    exact ⟨by omega, hj, hbefore, k, by omega, hjk, harrives⟩
  · rintro ⟨hjn, hj, hbefore, k, hk, hjk, harrives⟩
    exact ⟨by omega, hj, hbefore, k, by omega, hjk, harrives⟩

theorem wrapsArrive_lost : WrapsArrive lost start (n + 1) ↔ WrapsArrive lost start n := by
  constructor
  · rintro h i hi hid hbefore ⟨k, hk, hik, harrives⟩
    exact h i (by omega) hid hbefore ⟨k, by omega, hik, harrives⟩
  · rintro h i hi hid hbefore ⟨k, hk, hik, harrives⟩
    have hkn : k ≠ n := fun heq => by
      rw [heq, hn] at harrives
      cases harrives
    exact h i (by omega) hid hbefore ⟨k, by omega, hik, harrives⟩

end LostNext

section ArrivesNext
variable (hn : lost n = false)
include hn

theorem card_lostBetween_arrives (hp : IsLastReceived lost n p) :
    (lostBetween lost (n + 1)).card = (lostBetween lost n).card + (n - p - 1) := by
  have hsplit : lostBetween lost (n + 1) = lostBetween lost n ∪ Finset.Ioo p n := by
    ext j
    simp only [lostBetween, Finset.mem_union, Finset.mem_filter, Finset.mem_range, Finset.mem_Ioo]
    constructor
    · rintro ⟨-, hj, hbefore, k, hk, hjk, harrives⟩
      by_cases hjp : j < p
      · exact .inl ⟨by have := hp.lt; omega, hj, hbefore, p, hp.lt, hjp, hp.arrives⟩
      · have hne : j ≠ p := fun heq => by
          rw [heq, hp.arrives] at hj
          cases hj
        exact .inr ⟨by omega, by omega⟩
    · rintro (⟨hjn, hj, hbefore, k, hk, hjk, harrives⟩ | ⟨hpj, hjn⟩)
      · exact ⟨by omega, hj, hbefore, k, by omega, hjk, harrives⟩
      · exact ⟨by omega, hp.later j hpj hjn, ⟨p, hpj, hp.arrives⟩, n, by omega, hjn, hn⟩
  have hdisjoint : Disjoint (lostBetween lost n) (Finset.Ioo p n) := by
    rw [Finset.disjoint_left]
    simp only [lostBetween, Finset.mem_filter, Finset.mem_Ioo]
    rintro j ⟨-, -, -, k, hk, hjk, harrives⟩ ⟨hpj, -⟩
    rw [hp.later k (by omega) hk] at harrives
    cases harrives
  rw [hsplit, Finset.card_union_of_disjoint hdisjoint, Nat.card_Ioo]

theorem wrapsArrive_arrives (hp : IsLastReceived lost n p) :
    WrapsArrive lost start (n + 1) ↔ WrapsArrive lost start n ∧
      ∀ i, p ≤ i → i < n → (idOf start i).toNat = 65535 → i = p ∧ n = p + 1 := by
  have hlater : ∀ j, j < n → lost j = false → j ≤ p := by
    intro j hjn hj
    by_contra hpj
    rw [hp.later j (by omega) hjn] at hj
    cases hj
  have hlt := hp.lt
  constructor
  · refine fun h => ⟨?_, fun i hpi hin hid => ?_⟩
    · rintro i hi hid hbefore ⟨k, hk, hik, harrives⟩
      exact h i (by omega) hid hbefore ⟨k, by omega, hik, harrives⟩
    · obtain ⟨hi, hi'⟩ := h i (by omega) hid ⟨p, hpi, hp.arrives⟩ ⟨n, by omega, hin, hn⟩
      have hip := hlater i hin hi
      refine ⟨by omega, ?_⟩
      by_contra hne
      have := hlater (i + 1) (by omega) hi'
      omega
  · rintro ⟨hwraps, hlast⟩ i hi hid hbefore ⟨k, hk, hik, harrives⟩
    by_cases hip : i < p
    · exact hwraps i (by omega) hid hbefore ⟨p, hlt, hip, hp.arrives⟩
    · obtain ⟨rfl, rfl⟩ := hlast i (by omega) (by omega) hid
      exact ⟨hp.arrives, hn⟩

end ArrivesNext

/-! ## The count -/

/-- What is known after the packets that arrive, of the first `n`. -/
def tallied (lost : Nat → Bool) (start : UInt16) (n : Nat) : Option Nat × Nat :=
  ((received lost n).map (idOf start)).foldl tallyId (none, 0)

theorem tallied_lost (hn : lost n = true) : tallied lost start (n + 1) = tallied lost start n := by
  unfold tallied
  rw [received_succ, if_pos hn, List.append_nil]

theorem tallied_arrives (hn : lost n = false) :
    tallied lost start (n + 1) = tallyId (tallied lost start n) (idOf start n) := by
  unfold tallied
  rw [received_succ, if_neg (by simp [hn]), List.map_append, List.foldl_append]
  rfl

/-- The last id is that of the last packet that arrived. -/
theorem tallied_lastId (hp : IsLastReceived lost n p) :
    (tallied lost start n).1 = some (idOf start p).toNat := by
  induction n with
  | zero => exact absurd hp.lt (Nat.not_lt_zero p)
  | succ n ih =>
    have hlt := hp.lt
    cases hn : lost n with
    | true =>
      have hne : p ≠ n := fun heq => by
        rw [← heq, hp.arrives] at hn
        cases hn
      rw [tallied_lost hn]
      exact ih ⟨by omega, hp.arrives, fun j hj hj' => hp.later j hj (by omega)⟩
    | false =>
      have heq : p = n := by
        by_contra hne
        rw [hp.later n (by omega) (Nat.lt_succ_self n)] at hn
        cases hn
      rw [tallied_arrives hn, heq]
      rfl

/-- Before the first packet arrives nothing is counted and nothing is lost in between. -/
theorem none_before (start : UInt16) (h : ¬ ∃ i < n, lost i = false) :
    tallied lost start n = (none, 0) ∧ lostBetween lost (n + 1) = ∅ ∧
      WrapsArrive lost start (n + 1) := by
  have hempty : received lost n = [] := by
    refine List.filter_eq_nil_iff.mpr fun i hi => ?_
    have hlost : lost i ≠ false := fun harrives => h ⟨i, List.mem_range.mp hi, harrives⟩
    simp [hlost]
  refine ⟨by unfold tallied; rw [hempty]; rfl, ?_, ?_⟩
  · refine Finset.filter_eq_empty_iff.mpr fun j hj => ?_
    rintro ⟨-, ⟨i, hij, hi⟩, -⟩
    exact h ⟨i, by have := Finset.mem_range.mp hj; omega, hi⟩
  · rintro i hi - ⟨j, hji, hj⟩ -
    exact absurd ⟨j, by omega, hj⟩ h

/-- The distance to the last packet that arrived. -/
theorem distance_le (hp : IsLastReceived lost n p)
    (hshort : ShortLosses lost (n + 1)) : n - p ≤ 65535 := by
  by_contra hfar
  obtain ⟨j, hj, harrives⟩ := hshort (p + 1) (by omega)
  rw [hp.later (p + 1 + j) (by omega) (by omega)] at harrives
  cases harrives

/-- The count is at most the number of lost packets, and equal to it if all is well where the
counter starts again. -/
theorem tallied_spec (hshort : ShortLosses lost n) :
    (tallied lost start n).2 ≤ (lostBetween lost n).card ∧
      ((tallied lost start n).2 = (lostBetween lost n).card ↔ WrapsArrive lost start n) := by
  induction n with
  | zero => exact ⟨Nat.le_refl 0, fun _ i hi => absurd hi (by omega), fun _ => rfl⟩
  | succ n ih =>
    obtain ⟨hle, hiff⟩ := ih fun i hi => hshort i (by omega)
    cases hn : lost n with
    | true =>
      rw [tallied_lost hn, lostBetween_lost hn, wrapsArrive_lost hn]
      exact ⟨hle, hiff⟩
    | false =>
      rw [tallied_arrives hn]
      by_cases hfirst : ∃ i < n, lost i = false
      · obtain ⟨i, hi, harrives⟩ := hfirst
        obtain ⟨p, hp⟩ := exists_isLastReceived hi harrives
        obtain ⟨hgap, hgap_iff⟩ := gap_spec start hp.lt (distance_le hp hshort)
        rw [card_lostBetween_arrives hn hp, wrapsArrive_arrives hn hp, ← hiff, ← hgap_iff]
        unfold tallyId
        rw [tallied_lastId hp, Option.bind_some]
        dsimp only
        omega
      · obtain ⟨htally, hempty, hwraps⟩ := none_before start hfirst
        rw [htally, hempty]
        exact ⟨Nat.le_refl 0, fun _ => hwraps, fun _ => rfl⟩

end Sent

/-- **The count of lost packets is exact if and only if**, wherever the counter starts again
between the first and the last packet that arrive, the packets with the ids 65535 and 0 around
that place both arrive. -/
theorem droppedPackets_eq_iff {sensorIp : List UInt8} {frames : List EthPacket}
    {lost : Nat → Bool} {start : UInt16} {n : Nat}
    (hframes : ids sensorIp frames = (received lost n).map (idOf start))
    (hshort : ShortLosses lost n) :
    (run sensorIp {} frames).droppedPackets = (lostBetween lost n).card ↔
      WrapsArrive lost start n := by
  have hrun := run_tally sensorIp (s := {}) (Nat.le_refl 0) frames
  rw [hframes] at hrun
  have hdropped : (run sensorIp {} frames).droppedPackets = (tallied lost start n).2 :=
    congrArg Prod.snd hrun
  rw [hdropped]
  exact (tallied_spec hshort).2

/-- A frame of the sensor at the address 1.2.3.4. -/
def sensorFrame (id : UInt16) : EthPacket := ⟨ethTypeIp, 60, ⟨[1, 2, 3, 4], ipProtoUdp, id⟩⟩

/-- The ids 65534, 65535, 0 and 2 arrive, 1 does not. -/
theorem droppedPackets_one :
    ids [1, 2, 3, 4] ([65534, 65535, 0, 2].map sensorFrame) =
        (received (fun i => i == 3) 5).map (idOf 65534) ∧
      (run [1, 2, 3, 4] {} ([65534, 65535, 0, 2].map sensorFrame)).droppedPackets =
        (lostBetween (fun i => i == 3) 5).card := by
  have hframes : ids [1, 2, 3, 4] ([65534, 65535, 0, 2].map sensorFrame) =
      (received (fun i => i == 3) 5).map (idOf 65534) := by decide
  refine ⟨hframes, (droppedPackets_eq_iff hframes fun i hi => absurd hi (by omega)).mpr ?_⟩
  intro i hi hid _ _
  rw [toNat_idOf] at hid
  have h1 : i = 1 := by
    have : (65534 : UInt16).toNat = 65534 := rfl
    omega
  rw [h1]
  exact ⟨rfl, rfl⟩

/-- The ids 65534 and 0 arrive, 65535 is lost and not counted. -/
theorem wrap_not_counted :
    ids [1, 2, 3, 4] ([65534, 0].map sensorFrame) =
        (received (fun i => i == 1) 3).map (idOf 65534) ∧
      ShortLosses (fun i => i == 1) 3 ∧
      (run [1, 2, 3, 4] {} ([65534, 0].map sensorFrame)).droppedPackets = 0 ∧
      (lostBetween (fun i => i == 1) 3).card = 1 :=
  ⟨by decide, fun i hi => absurd hi (by omega), by decide, by decide⟩

end LoPhi.Automation.PacketLoss
