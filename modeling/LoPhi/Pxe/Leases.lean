import Mathlib.Data.List.Induction
import LoPhi.Pxe.Dhcpd

/-! # Address leases

`GetFreeIP` should look through the `pool_size` addresses from `ip_start` on.
The address it tries is the list `self.start_ip` itself, so what it adds to the
last octet stays added. The start of the pool thus runs ahead of every address
that was handed out: a call gives the start, or the address after it, and never
one that was given back. Leases stay different and stay with their machines.
They leave the pool when a machine asks while the last address of the pool is
the start and is taken, however many addresses before it are free. -/

namespace LoPhi.Pxe.Leases
open LoPhi.Lib LoPhi.Lib.Machine LoPhi.Pxe.Dhcpd

variable {l : Leases} {s : Services} {m : Message} {ipStart : Ip} {mac mac' : Mac} {ip : Ip}
  {o : Nat}

theorem advance_zero (ip : Ip) : ip.advance 0 = ip := rfl

theorem advance_advance (ip : Ip) (i j : Nat) : (ip.advance i).advance j = ip.advance (i + j) := by
  simp [Ip.advance, Nat.add_assoc]

theorem advance_inj {i j : Nat} (h : ip.advance i = ip.advance j) : i = j := by
  simpa [Ip.advance] using h

/-! ## The invariant of the code -/

/-- The start of the pool is `ip_start + o`, and no lease is beyond it. -/
structure Ahead (ipStart : Ip) (o : Nat) (l : Leases) : Prop where
  start : l.startIp = ipStart.advance o
  behind : ∀ mac ip, l.macToIp.get? mac = some ip → ∃ i ≤ o, ip = ipStart.advance i

/-- No address is leased twice. -/
def Distinct (l : Leases) : Prop :=
  ∀ mac mac' ip, l.macToIp.get? mac = some ip → l.macToIp.get? mac' = some ip → mac = mac'

theorem Ahead.next_free (h : Ahead ipStart o l) : l.startIp.advance 1 ∉ l.macToIp.values := by
  intro hmem
  obtain ⟨mac, hget⟩ := Dict.mem_values_iff.mp hmem
  obtain ⟨i, hi, heq⟩ := h.behind mac _ hget
  rw [h.start, advance_advance] at heq
  have := advance_inj heq
  omega

/-- What `GetFreeIP` does when no lease is beyond the start: the start if it is free,
else the address after it, and none if the pool has no second address. -/
theorem getFreeIP_eq (h : Ahead ipStart o l) :
    getFreeIP l =
      if l.poolSize = 0 then (l, none)
      else if l.startIp ∉ l.macToIp.values then (l, some l.startIp)
      else if l.poolSize = 1 then (l, none)
      else ({ l with startIp := l.startIp.advance 1 }, some (l.startIp.advance 1)) := by
  have hnext := h.next_free
  obtain ⟨startIp, poolSize, macToIp⟩ := l
  match poolSize with
  | 0 => rfl
  | 1 =>
    by_cases htaken : startIp ∈ macToIp.values
    · simp [getFreeIP, scan, advance_zero, htaken]
    · simp [getFreeIP, scan, advance_zero, htaken]
  | pool + 2 =>
    by_cases htaken : startIp ∈ macToIp.values
    · simp [getFreeIP, scan, advance_zero, htaken, hnext]
    · simp [getFreeIP, scan, advance_zero, htaken]

/-! ## What a message does to the leases -/

theorem leases_discover (packet : DhcpPacket) :
    (handleDhcpDiscover s packet).1.leases = (assignIp s.leases (macAddr packet)).1 := by
  unfold handleDhcpDiscover
  dsimp only
  split
  · rename_i h; rw [h]
  · rename_i h
    rw [h]
    split
    · rfl
    · split <;> rfl

theorem leases_request (packet : DhcpPacket) :
    (handleDhcpRequest s packet).1.leases = (assignIp s.leases (macAddr packet)).1 := by
  unfold handleDhcpRequest
  dsimp only
  split
  · rename_i h; rw [h]
  · rename_i h
    rw [h]
    split
    · rfl
    · split
      · split <;> rfl
      · rfl

theorem leases_acl (data : List Char) : (processAclRequest s data).1.leases = s.leases := by
  unfold processAclRequest
  repeat' split
  all_goals rfl

/-- A message assigns an address, takes one back, or does neither. -/
theorem leases_step (s : Services) (m : Message) :
    (∃ mac, m.asks = some mac ∧ m.givesBack = none ∧
      (step s m).1.leases = (assignIp s.leases mac).1) ∨
    (∃ mac, m.asks = none ∧ m.givesBack = some mac ∧
      (step s m).1.leases = removeIp s.leases mac) ∨
    (m.asks = none ∧ m.givesBack = none ∧ (step s m).1.leases = s.leases) := by
  cases m with
  | discover packet => exact .inl ⟨_, rfl, rfl, leases_discover packet⟩
  | request packet => exact .inl ⟨_, rfl, rfl, leases_request packet⟩
  | decline packet => exact .inr (.inl ⟨_, rfl, rfl, rfl⟩)
  | release packet => exact .inr (.inl ⟨_, rfl, rfl, rfl⟩)
  | acl data => exact .inr (.inr ⟨rfl, rfl, leases_acl data⟩)

/-- What an assignment does when no lease is beyond the start: it changes nothing that
can be looked up, leases the start, or leases the address after the start. -/
theorem assignIp_cases (h : Ahead ipStart o l) (mac : Mac) :
    ((l.macToIp.get? mac = none → l.poolSize < 2) ∧ (assignIp l mac).1.startIp = l.startIp ∧
      ∀ mac', (assignIp l mac).1.macToIp.get? mac' = l.macToIp.get? mac') ∨
    (l.macToIp.get? mac = none ∧ l.poolSize ≠ 0 ∧ l.startIp ∉ l.macToIp.values ∧
      (assignIp l mac).1 = { l with macToIp := l.macToIp.insert mac l.startIp }) ∨
    (l.macToIp.get? mac = none ∧ 2 ≤ l.poolSize ∧ l.startIp ∈ l.macToIp.values ∧
      (assignIp l mac).1 =
        { l with
          startIp := l.startIp.advance 1
          macToIp := l.macToIp.insert mac (l.startIp.advance 1) }) := by
  unfold assignIp
  cases hget : l.macToIp.get? mac with
  | some ip =>
    refine .inl ⟨nofun, rfl, fun mac' => ?_⟩
    show (l.macToIp.insert mac ip).get? mac' = _
    rw [Dict.get?_insert]
    split
    · rename_i heq; rw [heq, hget]
    · rfl
  | none =>
    dsimp only
    rw [getFreeIP_eq h]
    by_cases h0 : l.poolSize = 0
    · rw [if_pos h0]
      exact .inl ⟨fun _ => by omega, rfl, fun _ => rfl⟩
    · rw [if_neg h0]
      by_cases hfree : l.startIp ∉ l.macToIp.values
      · rw [if_pos hfree]
        exact .inr (.inl ⟨rfl, h0, hfree, rfl⟩)
      · rw [if_neg hfree]
        by_cases h1 : l.poolSize = 1
        · rw [if_pos h1]
          exact .inl ⟨fun _ => by omega, rfl, fun _ => rfl⟩
        · rw [if_neg h1]
          exact .inr (.inr ⟨rfl, by omega, not_not.mp hfree, rfl⟩)

theorem poolSize_assignIp (l : Leases) (mac : Mac) :
    (assignIp l mac).1.poolSize = l.poolSize := by
  unfold assignIp getFreeIP
  cases l.macToIp.get? mac with
  | some ip => rfl
  | none =>
    dsimp only
    cases (scan l.macToIp.values l.poolSize 0 l.startIp).2 <;> rfl

/-- A new lease of an address nobody has. -/
theorem distinct_insert (h : Distinct l) (hip : ip ∉ l.macToIp.values) {start : Ip} :
    Distinct { l with startIp := start, macToIp := l.macToIp.insert mac ip } := by
  have hother : ∀ mac' , l.macToIp.get? mac' ≠ some ip :=
    fun mac' hget => hip (Dict.mem_values_iff.mpr ⟨mac', hget⟩)
  intro mac₁ mac₂ ip' h₁ h₂
  rw [Dict.get?_insert] at h₁ h₂
  split at h₁ <;> split at h₂
  · rename_i e₁ e₂; rw [e₁, e₂]
  · cases h₁; exact absurd h₂ (hother mac₂)
  · cases h₂; exact absurd h₁ (hother mac₁)
  · exact h mac₁ mac₂ ip' h₁ h₂

/-! ## Soundness -/

/-- The leases are different, in the pool, and complete. -/
structure Sound (ipStart : Ip) (poolSize : Nat) (l : Leases) : Prop where
  distinct : Distinct l
  inPool : ∀ mac ip, l.macToIp.get? mac = some ip → ∃ i < poolSize, ip = ipStart.advance i
  complete : (getFreeIP l).2 = none → ∀ i < poolSize, ipStart.advance i ∈ l.macToIp.values

/-- What the code keeps as long as it stays in the pool. -/
structure Within (ipStart : Ip) (poolSize : Nat) (l : Leases) : Prop where
  size : l.poolSize = poolSize
  distinct : Distinct l
  inPool : ∀ mac ip, l.macToIp.get? mac = some ip → ∃ i < poolSize, ip = ipStart.advance i
  ahead : ∃ o, Ahead ipStart o l ∧ (o = 0 ∨ o < poolSize)

/-- A machine without an address asks for one, and the start of the pool has reached the
last address of the pool, which is taken. -/
def Exhausts (ipStart : Ip) (l : Leases) (m : Message) : Prop :=
  ∃ mac, m.asks = some mac ∧ l.macToIp.get? mac = none ∧ 2 ≤ l.poolSize ∧
    l.startIp = ipStart.advance (l.poolSize - 1) ∧ l.startIp ∈ l.macToIp.values

theorem Within.sound {poolSize : Nat} (h : Within ipStart poolSize l) :
    Sound ipStart poolSize l := by
  refine ⟨h.distinct, h.inPool, fun hnone i hi => ?_⟩
  obtain ⟨o, ha, ho⟩ := h.ahead
  rw [getFreeIP_eq ha] at hnone
  by_cases hfree : l.startIp ∉ l.macToIp.values
  · rw [if_neg (by rw [h.size]; omega), if_pos hfree] at hnone
    cases hnone
  · by_cases h1 : l.poolSize = 1
    · rw [h.size] at h1
      obtain ⟨rfl, rfl⟩ : i = 0 ∧ o = 0 := by omega
      rw [← ha.start]
      exact not_not.mp hfree
    · rw [if_neg (by rw [h.size]; omega), if_neg hfree, if_neg h1] at hnone
      cases hnone

/-! ## One message -/

section Step
variable {poolSize : Nat} (h : Within ipStart poolSize l)
include h

/-- Nothing that can be looked up has changed. -/
theorem Within.of_lookups {l' : Leases} (hsize : l'.poolSize = l.poolSize)
    (hstart : l'.startIp = l.startIp) (hget : ∀ mac, l'.macToIp.get? mac = l.macToIp.get? mac) :
    Within ipStart poolSize l' := by
  obtain ⟨o, ha, ho⟩ := h.ahead
  refine ⟨hsize.trans h.size, fun mac mac' ip h₁ h₂ => ?_, fun mac ip hip => ?_, o, ⟨?_, ?_⟩, ho⟩
  · exact h.distinct mac mac' ip (hget mac ▸ h₁) (hget mac' ▸ h₂)
  · exact h.inPool mac ip (hget mac ▸ hip)
  · exact hstart.trans ha.start
  · exact fun mac ip hip => ha.behind mac ip (hget mac ▸ hip)

theorem within_removeIp (mac : Mac) : Within ipStart poolSize (removeIp l mac) := by
  obtain ⟨o, ha, ho⟩ := h.ahead
  have hget : ∀ {mac' ip}, (removeIp l mac).macToIp.get? mac' = some ip →
      l.macToIp.get? mac' = some ip := by
    intro mac' ip hip
    rw [removeIp, Dict.get?_erase] at hip
    split at hip
    · cases hip
    · exact hip
  refine ⟨h.size, fun mac mac' ip h₁ h₂ => ?_, fun mac ip hip => ?_, o, ⟨ha.start, ?_⟩, ho⟩
  · exact h.distinct mac mac' ip (hget h₁) (hget h₂)
  · exact h.inPool mac ip (hget hip)
  · exact fun mac ip hip => ha.behind mac ip (hget hip)

/-- A lease of the address at `i`, which becomes the start of the pool. -/
theorem within_lease (mac : Mac) {i : Nat} (ha : Ahead ipStart o l) (hoi : o ≤ i)
    (hi : i < poolSize) (hfree : ipStart.advance i ∉ l.macToIp.values) :
    Within ipStart poolSize { l with
      startIp := ipStart.advance i
      macToIp := l.macToIp.insert mac (ipStart.advance i) } := by
  refine ⟨h.size, distinct_insert h.distinct hfree, fun mac' ip hip => ?_, i, ⟨rfl, ?_⟩, .inr hi⟩
  · rw [Dict.get?_insert] at hip
    split at hip
    · cases hip; exact ⟨i, hi, rfl⟩
    · exact h.inPool mac' ip hip
  · intro mac' ip hip
    rw [Dict.get?_insert] at hip
    split at hip
    · cases hip; exact ⟨i, Nat.le_refl i, rfl⟩
    · obtain ⟨j, hj, hip⟩ := ha.behind mac' ip hip
      exact ⟨j, by omega, hip⟩

/-- A message keeps the leases in the pool unless it exhausts it. -/
theorem within_step (hl : s.leases = l) (hno : ¬ Exhausts ipStart l m) :
    Within ipStart poolSize (step s m).1.leases := by
  subst hl
  obtain ⟨o, ha, ho⟩ := h.ahead
  rcases leases_step s m with ⟨mac, hm, _, heq⟩ | ⟨mac, _, _, heq⟩ | ⟨_, _, heq⟩
  · rw [heq]
    rcases assignIp_cases ha mac with
      ⟨_, hstart, hget⟩ | ⟨_, h0, hfree, hl⟩ | ⟨hget, h2, htaken, hl⟩
    · exact h.of_lookups (poolSize_assignIp _ _) hstart hget
    · rw [h.size] at h0
      rw [ha.start] at hfree
      have hw := within_lease h mac ha (Nat.le_refl o) (by omega) hfree
      rwa [hl, ha.start]
    · have hne : o ≠ s.leases.poolSize - 1 :=
        fun he => hno ⟨mac, hm, hget, h2, he ▸ ha.start, htaken⟩
      rw [h.size] at h2 hne
      have hfree := ha.next_free
      rw [ha.start, advance_advance] at hfree
      have hw := within_lease h mac ha (Nat.le_succ o) (by omega) hfree
      rwa [hl, ha.start, advance_advance]
  · rw [heq]; exact within_removeIp h mac
  · rw [heq]; exact h

/-- A message that exhausts the pool hands out an address outside it. -/
theorem not_sound_of_exhausts (hl : s.leases = l) (hex : Exhausts ipStart l m) :
    ¬ Sound ipStart poolSize (step s m).1.leases := by
  subst hl
  intro hs
  obtain ⟨mac, hm, hget, h2, hstart, htaken⟩ := hex
  obtain ⟨o, ha, _⟩ := h.ahead
  rcases leases_step s m with ⟨mac', hm', _, heq⟩ | ⟨_, hm', _⟩ | ⟨hm', _⟩
  · obtain rfl := Option.some.inj (hm.symm.trans hm')
    rcases assignIp_cases ha mac with ⟨hnone, _⟩ | ⟨_, _, hfree, _⟩ | ⟨_, _, _, hl⟩
    · have := hnone hget
      omega
    · exact hfree htaken
    · rw [heq, hl] at hs
      obtain ⟨i, hi, hip⟩ := hs.inPool mac _ (by rw [Dict.get?_insert, if_pos rfl])
      rw [hstart, advance_advance] at hip
      have := advance_inj hip
      rw [h.size] at this h2
      omega
  · rw [hm] at hm'; cases hm'
  · rw [hm] at hm'; cases hm'

/-- A machine keeps its address until it gives it back. -/
theorem lease_kept (hl : s.leases = l) {mac : Mac} {ip : Ip}
    (hget : l.macToIp.get? mac = some ip) (hm : m.givesBack ≠ some mac) :
    (step s m).1.leases.macToIp.get? mac = some ip := by
  subst hl
  obtain ⟨o, ha, _⟩ := h.ahead
  have hkeep : ∀ {mac' ip'}, s.leases.macToIp.get? mac' = none →
      (s.leases.macToIp.insert mac' ip').get? mac = some ip := by
    intro mac' ip' hnone
    rw [Dict.get?_insert, if_neg, hget]
    rintro rfl
    rw [hget] at hnone
    cases hnone
  rcases leases_step s m with ⟨mac', _, _, heq⟩ | ⟨mac', _, hm', heq⟩ | ⟨_, _, heq⟩
  · rw [heq]
    rcases assignIp_cases ha mac' with ⟨_, _, hsame⟩ | ⟨hnone, _, _, hl⟩ | ⟨hnone, _, _, hl⟩
    · rw [hsame, hget]
    · rw [hl]; exact hkeep hnone
    · rw [hl]; exact hkeep hnone
  · rw [heq, removeIp, Dict.get?_erase, if_neg, hget]
    rintro rfl
    exact hm hm'
  · rw [heq, hget]

end Step

/-! ## Runs -/

variable {poolSize : Nat}

theorem within_init (config : Config) (ipStart : Ip) (poolSize : Nat) :
    Within ipStart poolSize (Services.init config ipStart poolSize).leases where
  size := rfl
  distinct := nofun
  inPool := nofun
  ahead := ⟨0, ⟨rfl, nofun⟩, .inl rfl⟩

/-- In every state the leases are sound, and no message takes an address from a machine
that does not give it back. -/
def LeasesSound (ipStart : Ip) (poolSize : Nat) (s₀ : Services) (ms : List Message) : Prop :=
  (∀ k, k ≤ ms.length → Sound ipStart poolSize (stateAt step s₀ ms k).leases) ∧
    ∀ k m mac ip, ms[k]? = some m → (stateAt step s₀ ms k).leases.macToIp.get? mac = some ip →
      m.givesBack ≠ some mac →
      (stateAt step s₀ ms (k + 1)).leases.macToIp.get? mac = some ip

theorem within_run {config : Config} {ms : List Message}
    (hno : ∀ k m, ms[k]? = some m →
      Within ipStart poolSize
        (stateAt step (Services.init config ipStart poolSize) ms k).leases →
      ¬ Exhausts ipStart (stateAt step (Services.init config ipStart poolSize) ms k).leases m) :
    ∀ k, k ≤ ms.length → Within ipStart poolSize
      (stateAt step (Services.init config ipStart poolSize) ms k).leases := by
  refine stateAt_invariant (fun s : Services => Within ipStart poolSize s.leases)
    (within_init config ipStart poolSize) ?_
  intro k m hm hw
  rw [stateAt_succ hm]
  exact within_step hw rfl (hno k m hm hw)

/-- **For every pool and every sequence of messages, the leases are sound, complete and
kept if and only if no machine without an address asks for one while the start
of the pool is its last address and that address is taken.** -/
theorem leases_sound_iff (config : Config) (ipStart : Ip) (poolSize : Nat) (ms : List Message) :
    LeasesSound ipStart poolSize (Services.init config ipStart poolSize) ms ↔
      ∀ k m, ms[k]? = some m → ¬ Exhausts ipStart
        (stateAt step (Services.init config ipStart poolSize) ms k).leases m := by
  constructor
  · intro hsound
    have hno : ∀ k m, ms[k]? = some m →
        Within ipStart poolSize
          (stateAt step (Services.init config ipStart poolSize) ms k).leases →
        ¬ Exhausts ipStart
          (stateAt step (Services.init config ipStart poolSize) ms k).leases m := by
      intro k m hm hw hex
      have hk := (List.getElem?_eq_some_iff.mp hm).1
      have hnext := hsound.1 (k + 1) (by omega)
      rw [stateAt_succ hm] at hnext
      exact not_sound_of_exhausts hw rfl hex hnext
    intro k m hm
    have hk := (List.getElem?_eq_some_iff.mp hm).1
    exact hno k m hm (within_run hno k (by omega))
  · intro hno
    have hwithin := within_run fun k m hm _ => hno k m hm
    refine ⟨fun k hk => (hwithin k hk).sound, fun k m mac ip hm hget hback => ?_⟩
    have hk := (List.getElem?_eq_some_iff.mp hm).1
    rw [stateAt_succ hm]
    exact lease_kept (hwithin k (by omega)) rfl hget hback

/-- With a pool of two addresses from 10.0.0.100 on, two machines ask, the first one
gives its address back, and a third one asks. -/
def reuse : List Message :=
  [.discover { hardware := [1] }, .discover { hardware := [2] }, .release { hardware := [1] },
    .discover { hardware := [3] }]

/-- The third machine gets 10.0.0.102, though 10.0.0.100 is free. -/
theorem released_address_not_reused :
    ¬ LeasesSound ⟨10, 0, 0, 100⟩ 2 (Services.init testConfig ⟨10, 0, 0, 100⟩ 2) reuse := by
  intro h
  have hget : (stateAt step (Services.init testConfig ⟨10, 0, 0, 100⟩ 2) reuse
      4).leases.macToIp.get? ['0', '3'] = some ⟨10, 0, 0, 102⟩ := by decide
  obtain ⟨i, hi, heq⟩ := (h.1 4 (by decide)).inPool _ _ hget
  have hd : 102 = 100 + i := congrArg Ip.d heq
  omega

/-! ## Every run

Leases are different also where the pool is exceeded. -/

/-- What the leases keep in every run. -/
structure Apart (ipStart : Ip) (l : Leases) : Prop where
  ahead : ∃ o, Ahead ipStart o l
  distinct : Distinct l

theorem apart_assignIp {l : Leases} (h : Apart ipStart l) (mac : Mac) :
    Apart ipStart (assignIp l mac).1 := by
  obtain ⟨⟨o, ha⟩, hd⟩ := h
  rcases assignIp_cases ha mac with ⟨-, hstart, hget⟩ | ⟨-, -, hfree, hl⟩ | ⟨-, -, -, hl⟩
  · refine ⟨⟨o, hstart.trans ha.start, fun mac' ip hip => ?_⟩, fun mac' mac'' ip h₁ h₂ => ?_⟩
    · exact ha.behind mac' ip (hget mac' ▸ hip)
    · exact hd mac' mac'' ip (hget mac' ▸ h₁) (hget mac'' ▸ h₂)
  · rw [hl]
    refine ⟨⟨o, ha.start, fun mac' ip hip => ?_⟩, distinct_insert hd hfree⟩
    rw [Dict.get?_insert] at hip
    split at hip
    · cases hip
      exact ⟨o, Nat.le_refl o, ha.start⟩
    · exact ha.behind mac' ip hip
  · rw [hl]
    refine ⟨⟨o + 1, ?_, fun mac' ip hip => ?_⟩, distinct_insert hd ha.next_free⟩
    · dsimp only
      rw [ha.start, advance_advance]
    · rw [Dict.get?_insert] at hip
      split at hip
      · cases hip
        exact ⟨o + 1, Nat.le_refl _, by rw [ha.start, advance_advance]⟩
      · obtain ⟨i, hi, hip⟩ := ha.behind mac' ip hip
        exact ⟨i, Nat.le_succ_of_le hi, hip⟩

theorem apart_removeIp {l : Leases} (h : Apart ipStart l) (mac : Mac) :
    Apart ipStart (removeIp l mac) := by
  obtain ⟨⟨o, ha⟩, hd⟩ := h
  have hget : ∀ {mac' ip}, (removeIp l mac).macToIp.get? mac' = some ip →
      l.macToIp.get? mac' = some ip := by
    intro mac' ip hip
    rw [removeIp, Dict.get?_erase] at hip
    split at hip
    · cases hip
    · exact hip
  refine ⟨⟨o, ha.start, fun mac' ip hip => ha.behind mac' ip (hget hip)⟩, ?_⟩
  exact fun mac' mac'' ip h₁ h₂ => hd mac' mac'' ip (hget h₁) (hget h₂)

theorem apart_step (h : Apart ipStart s.leases) (m : Message) :
    Apart ipStart (step s m).1.leases := by
  rcases leases_step s m with ⟨mac, -, -, heq⟩ | ⟨mac, -, -, heq⟩ | ⟨-, -, heq⟩
  · rw [heq]
    exact apart_assignIp h mac
  · rw [heq]
    exact apart_removeIp h mac
  · rw [heq]
    exact h

theorem apart_run (config : Config) (ipStart : Ip) (poolSize : Nat) (ms : List Message) :
    Apart ipStart (run step (Services.init config ipStart poolSize) ms).leases := by
  induction ms using List.reverseRecOn with
  | nil => exact ⟨⟨0, rfl, nofun⟩, nofun⟩
  | append_singleton ms m ih =>
    rw [run_append, run_cons, run_nil]
    exact apart_step ih m

end LoPhi.Pxe.Leases
