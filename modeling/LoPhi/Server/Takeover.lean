import LoPhi.Server.Relay
import LoPhi.Lib.Machine

/-! # Taking over a stream

`forward_data` reads `forward_socket_fd` again for every `sendto`, while `update_forward_fd` may
be called at any time: by a client that subscribes, takes over or leaves. -/

namespace LoPhi.Server.Takeover
open LoPhi.Lib.Machine LoPhi.Hypervisor LoPhi.Server.Relay

/-- What `hypervisor_connection` has in its buffer once it has read a packet. Where the size is
negative that is only the header. -/
def Buffered (buffer : List UInt8) : Prop :=
  (parseHeader buffer).check = none ∧
    (buffer.length : Int) = max (headerSize : Int) (parseHeader buffer).packetSize

instance (buffer : List UInt8) : Decidable (Buffered buffer) :=
  inferInstanceAs (Decidable (_ ∧ _))

/-- Where the thread of a VM is: outside `forward_data`, in its loop, or behind a `sendto` that
failed. -/
inductive Phase where
  | reading
  | forwarding (buffer : List UInt8) (written : Nat)
  | closing (buffer : List UInt8) (written : Nat)
  deriving DecidableEq

/-- A VM and what the clients got from it: `last` is the descriptor of the last `sendto` that
took bytes, `packets` are those that `forward_data` was called with, and `stops` says how much
a client had received each time it stopped being the target. -/
structure Vm where
  forwardSocketFd : Int
  phase : Phase
  last : Int
  packets : List (List UInt8)
  received : Int → List UInt8
  stops : Int → List Nat

def Vm.initial : Vm := ⟨-1, .reading, -1, [], fun _ => [], fun _ => []⟩

/-- `update_forward_fd`. -/
def Vm.updateForwardFd (vm : Vm) (fd : Int) : Vm :=
  { vm with
      forwardSocketFd := fd
      stops := fun c =>
        if c = vm.forwardSocketFd ∧ c ≠ fd then vm.stops c ++ [(vm.received c).length]
        else vm.stops c }

/-- What can happen to a VM: a call of `update_forward_fd` by a client, a packet that has been
read, a `sendto` with the number it returns, and the end of `forward_data`. -/
inductive Action where
  | updateForwardFd (fd : Int)
  | packet (buffer : List UInt8)
  | sendto (w : Int)
  | leave

/-- A `sendto` of `forward_data`, which may take less than it was asked to. -/
def Vm.sendto (vm : Vm) (buffer : List UInt8) (written : Nat) (w : Int) : Vm :=
  let sendSize := min (maxBytesSent : Int) ((parseHeader buffer).packetSize - written)
  if w ≤ 0 ∨ vm.forwardSocketFd = -1 then { vm with phase := .closing buffer written }
  else if w ≤ sendSize then
    { vm with
        phase := .forwarding buffer (written + w.toNat)
        last := vm.forwardSocketFd
        received := fun c =>
          if c = vm.forwardSocketFd then vm.received c ++ (buffer.drop written).take w.toNat
          else vm.received c }
  else vm

/-- One action. One that is not possible changes nothing. -/
def Vm.act (vm : Vm) : Action → Vm
  | .updateForwardFd fd => vm.updateForwardFd fd
  | .packet buffer =>
    match vm.phase with
    | .reading =>
      if Buffered buffer ∧ vm.forwardSocketFd ≠ -1 then
        { vm with phase := .forwarding buffer 0, packets := vm.packets ++ [buffer] }
      else vm
    | _ => vm
  | .sendto w =>
    match vm.phase with
    | .forwarding buffer written =>
      if (written : Int) < (parseHeader buffer).packetSize then vm.sendto buffer written w
      else vm
    | _ => vm
  | .leave =>
    match vm.phase with
    | .forwarding buffer written =>
      if (written : Int) < (parseHeader buffer).packetSize then vm
      else { vm with phase := .reading }
    | .closing _ _ => { vm.updateForwardFd (-1) with phase := .reading }
    | .reading => vm

/-- The VMs by their `thread_id`. -/
abbrev State := Int → Vm

def State.initial : State := fun _ => Vm.initial

def step (s : State) (e : Int × Action) : State × Unit :=
  (Function.update s e.1 ((s e.1).act e.2), ())

/-! ## Whole packets -/

/-- Bytes that are a sequence of packets, where one may be cut at a stop. -/
inductive Whole (packets : List (List UInt8)) (stops : List Nat) : List UInt8 → Prop
  | nil : Whole packets stops []
  | packet {bytes packet : List UInt8} : Whole packets stops bytes → packet ∈ packets →
      Whole packets stops (bytes ++ packet)
  | cut {bytes part rest : List UInt8} : Whole packets stops bytes → part ++ rest ∈ packets →
      (bytes ++ part).length ∈ stops → Whole packets stops (bytes ++ part)

/-- The packet that is being forwarded and how much of it is sent. -/
def Phase.current : Phase → Option (List UInt8 × Nat)
  | .reading => none
  | .forwarding buffer written => some (buffer, written)
  | .closing buffer written => some (buffer, written)

/-- What a client got from a VM is whole, apart from the packet that is on its way. -/
def WholePackets (vm : Vm) (client : Int) : Prop :=
  ∃ done part, vm.received client = done ++ part ∧
    Whole vm.packets (vm.stops client) done ∧
    (part = [] ∨ vm.forwardSocketFd = client ∧
      ∃ buffer written, vm.phase.current = some (buffer, written) ∧ part = buffer.take written)

/-- A `sendto` continues a packet to another client than the one that got the bytes before. -/
def Splits (vm : Vm) (a : Action) : Prop :=
  ∃ buffer written w, vm.phase = .forwarding buffer written ∧ 0 < written ∧ a = .sendto w ∧
    0 < w ∧ vm.forwardSocketFd ≠ -1 ∧ vm.forwardSocketFd ≠ vm.last

theorem Whole.mono {packets packets' : List (List UInt8)} {stops stops' : List Nat}
    {bytes : List UInt8} (h : Whole packets stops bytes) (hpackets : packets ⊆ packets')
    (hstops : stops ⊆ stops') : Whole packets' stops' bytes := by
  induction h with
  | nil => exact .nil
  | packet _ hmem ih => exact ih.packet (hpackets hmem)
  | cut _ hmem hstop ih => exact ih.cut (hpackets hmem) (hstops hstop)

theorem Whole.part {packets : List (List UInt8)} {stops : List Nat} {bytes buffer : List UInt8}
    {written : Nat} (h : Whole packets stops bytes) (hbuffer : buffer ∈ packets)
    (hstop : (bytes ++ buffer.take written).length ∈ stops) :
    Whole packets stops (bytes ++ buffer.take written) := by
  rw [← List.take_append_drop written buffer] at hbuffer
  exact h.cut hbuffer hstop

/-- A packet of which something is to be sent is in the buffer whole. -/
theorem Buffered.length_eq {buffer : List UInt8} (h : Buffered buffer)
    (hpos : 0 < (parseHeader buffer).packetSize) :
    (buffer.length : Int) = (parseHeader buffer).packetSize := by
  obtain ⟨hcheck, hlength⟩ := h
  have hmod := size_of_check hcheck
  unfold Header.packetSize headerSize at *
  omega

/-- Before a packet is through, the client that gets it has everything else whole, and is the
target unless it stopped there; all others have whole packets. -/
structure Invariant (vm : Vm) : Prop where
  fits : ∀ buffer written, vm.phase.current = some (buffer, written) →
    buffer ∈ vm.packets ∧ Buffered buffer ∧
      (written : Int) ≤ max 0 (parseHeader buffer).packetSize
  others : ∀ c, (∀ buffer written, vm.phase.current = some (buffer, written) → 0 < written →
    c ≠ vm.last) → Whole vm.packets (vm.stops c) (vm.received c)
  partly : ∀ buffer written, vm.phase.current = some (buffer, written) → 0 < written →
    vm.last ≠ -1 ∧ ∃ done, vm.received vm.last = done ++ buffer.take written ∧
      Whole vm.packets (vm.stops vm.last) done ∧
      (vm.forwardSocketFd = vm.last ∨ (vm.received vm.last).length ∈ vm.stops vm.last)

theorem Invariant.initial : Invariant Vm.initial where
  fits _ _ h := by cases h
  others _ _ := .nil
  partly _ _ h := by cases h

section Step
variable {vm : Vm}

/-- Outside `forward_data` everything is whole. -/
theorem Invariant.of_reading (hphase : vm.phase.current = none)
    (h : ∀ c, Whole vm.packets (vm.stops c) (vm.received c)) : Invariant vm where
  fits _ _ hcurrent := by cases hphase.symm.trans hcurrent
  others c _ := h c
  partly _ _ hcurrent := by cases hphase.symm.trans hcurrent

theorem subset_stops (vm : Vm) (fd c : Int) : vm.stops c ⊆ (vm.updateForwardFd fd).stops c := by
  unfold Vm.updateForwardFd
  simp only
  split
  · exact List.subset_append_left _ _
  · exact List.Subset.refl _

/-- A client that does not stop being the target stays it. -/
theorem target_or_stopped (vm : Vm) (fd : Int) {c : Int}
    (h : vm.forwardSocketFd = c ∨ (vm.received c).length ∈ vm.stops c) :
    fd = c ∨ (vm.received c).length ∈ (vm.updateForwardFd fd).stops c := by
  by_cases hfd : fd = c
  · exact Or.inl hfd
  · rcases h with htarget | hstop
    · refine Or.inr ?_
      unfold Vm.updateForwardFd
      simp only
      rw [if_pos ⟨htarget.symm, Ne.symm hfd⟩]
      simp
    · exact Or.inr (subset_stops vm fd c hstop)

theorem Invariant.updateForwardFd (h : Invariant vm) (fd : Int) :
    Invariant (vm.updateForwardFd fd) where
  fits := h.fits
  others c hc := (h.others c hc).mono (List.Subset.refl _) (subset_stops vm fd c)
  partly buffer written hcurrent hpos := by
    obtain ⟨hlast, done, hreceived, hdone, htarget⟩ := h.partly buffer written hcurrent hpos
    exact ⟨hlast, done, hreceived, hdone.mono (List.Subset.refl _) (subset_stops vm fd _),
      target_or_stopped vm fd htarget⟩

/-- A new packet. -/
theorem Invariant.packet (h : Invariant vm) (hphase : vm.phase = .reading) {buffer : List UInt8}
    (hbuffer : Buffered buffer) :
    Invariant { vm with phase := .forwarding buffer 0, packets := vm.packets ++ [buffer] } where
  fits p w hcurrent := by
    cases hcurrent
    exact ⟨by simp, hbuffer, by omega⟩
  others c _ := by
    refine (h.others c fun p w hcurrent => ?_).mono (List.subset_append_left _ _)
      (List.Subset.refl _)
    rw [hphase] at hcurrent
    cases hcurrent
  partly p w hcurrent hpos := by
    cases hcurrent
    cases hpos

/-- A `sendto` that fails. -/
theorem Invariant.closing (h : Invariant vm) {buffer : List UInt8} {written : Nat}
    (hphase : vm.phase = .forwarding buffer written) :
    Invariant { vm with phase := .closing buffer written } := by
  have hcurrent : (Phase.closing buffer written).current = vm.phase.current := by
    rw [hphase]
    rfl
  constructor
  · intro p w hp
    exact h.fits p w (hcurrent.symm.trans hp)
  · intro c hc
    exact h.others c fun p w hp => hc p w (hcurrent.trans hp)
  · intro p w hp hpos
    exact h.partly p w (hcurrent.symm.trans hp) hpos

/-- What the target has, before more of the packet is sent to it. -/
theorem Invariant.target (h : Invariant vm) {buffer : List UInt8} {written : Nat}
    (hphase : vm.phase = .forwarding buffer written)
    (hsame : 0 < written → vm.forwardSocketFd = vm.last) :
    ∃ done, vm.received vm.forwardSocketFd = done ++ buffer.take written ∧
      Whole vm.packets (vm.stops vm.forwardSocketFd) done := by
  have hcurrent : vm.phase.current = some (buffer, written) := by
    rw [hphase]
    rfl
  rcases Nat.eq_zero_or_pos written with rfl | hpos
  · refine ⟨vm.received vm.forwardSocketFd, ?_, h.others _ fun p w hp hw => ?_⟩
    · rw [List.take_zero, List.append_nil]
    · cases hcurrent.symm.trans hp
      cases hw
  · obtain ⟨-, done, hreceived, hdone, -⟩ := h.partly buffer written hcurrent hpos
    rw [hsame hpos]
    exact ⟨done, hreceived, hdone⟩

theorem Invariant.sendto (h : Invariant vm) {buffer : List UInt8} {written : Nat} {w : Int}
    (hphase : vm.phase = .forwarding buffer written) (hsplit : ¬ Splits vm (.sendto w)) :
    Invariant (vm.sendto buffer written w) := by
  have hcurrent : vm.phase.current = some (buffer, written) := by
    rw [hphase]
    rfl
  unfold Vm.sendto
  simp only
  split
  · exact h.closing hphase
  · rename_i hsent
    obtain ⟨hw, hfd⟩ := not_or.mp hsent
    split
    · rename_i hsize
      have hsame : 0 < written → vm.forwardSocketFd = vm.last := by
        intro hpos
        by_contra hne
        exact hsplit ⟨buffer, written, w, hphase, hpos, rfl, by omega, hfd, hne⟩
      obtain ⟨hmem, hbuffer, hfits⟩ := h.fits buffer written hcurrent
      obtain ⟨done, hreceived, hdone⟩ := h.target hphase hsame
      constructor
      · intro p k hp
        cases hp
        exact ⟨hmem, hbuffer, by omega⟩
      · intro c hc
        have hother : c ≠ vm.forwardSocketFd := hc buffer _ rfl (by omega)
        simp only
        rw [if_neg hother]
        refine h.others c fun p k hp hk => ?_
        cases hcurrent.symm.trans hp
        rw [← hsame hk]
        exact hother
      · intro p k hp _
        cases hp
        refine ⟨hfd, done, ?_, hdone, Or.inl rfl⟩
        simp only
        rw [if_pos trivial, hreceived, List.append_assoc, List.take_add]
    · exact h

/-- The end of a packet that is sent. -/
theorem Invariant.complete (h : Invariant vm) {buffer : List UInt8} {written : Nat}
    (hphase : vm.phase = .forwarding buffer written)
    (hend : ¬ (written : Int) < (parseHeader buffer).packetSize) :
    Invariant { vm with phase := .reading } := by
  have hcurrent : vm.phase.current = some (buffer, written) := by
    rw [hphase]
    rfl
  obtain ⟨hmem, hbuffer, hfits⟩ := h.fits buffer written hcurrent
  refine .of_reading rfl fun c => ?_
  by_cases hc : 0 < written ∧ c = vm.last
  · obtain ⟨hpos, rfl⟩ := hc
    obtain ⟨-, done, hreceived, hdone, -⟩ := h.partly buffer written hcurrent hpos
    have hlength := hbuffer.length_eq (by omega)
    simp only
    rw [hreceived, List.take_of_length_le (by omega)]
    exact hdone.packet hmem
  · refine h.others c fun p w hp hw hlast => ?_
    cases hcurrent.symm.trans hp
    exact hc ⟨hw, hlast⟩

/-- The end of a packet that is cut. -/
theorem Invariant.cut (h : Invariant vm) {buffer : List UInt8} {written : Nat}
    (hphase : vm.phase = .closing buffer written) :
    Invariant { vm.updateForwardFd (-1) with phase := .reading } := by
  have hcurrent : vm.phase.current = some (buffer, written) := by
    rw [hphase]
    rfl
  refine .of_reading rfl fun c => ?_
  by_cases hc : 0 < written ∧ c = vm.last
  · obtain ⟨hpos, rfl⟩ := hc
    obtain ⟨hmem, -, -⟩ := h.fits buffer written hcurrent
    obtain ⟨hlast, done, hreceived, hdone, htarget⟩ := h.partly buffer written hcurrent hpos
    rcases target_or_stopped vm (-1) htarget with hnone | hstop
    · exact absurd hnone.symm hlast
    · rw [hreceived] at hstop
      show Whole vm.packets ((vm.updateForwardFd (-1)).stops vm.last) (vm.received vm.last)
      rw [hreceived]
      exact (hdone.mono (List.Subset.refl _) (subset_stops vm (-1) _)).part hmem hstop
  · refine (h.others c fun p w hp hw hlast => ?_).mono (List.Subset.refl _) (subset_stops vm _ c)
    cases hcurrent.symm.trans hp
    exact hc ⟨hw, hlast⟩

theorem Invariant.act (h : Invariant vm) {a : Action} (hsplit : ¬ Splits vm a) :
    Invariant (vm.act a) := by
  cases a with
  | updateForwardFd fd => exact h.updateForwardFd fd
  | packet buffer =>
    simp only [Vm.act]
    split
    · rename_i hphase
      split
      · rename_i hforward
        exact h.packet hphase hforward.1
      · exact h
    · exact h
  | sendto w =>
    simp only [Vm.act]
    split
    · rename_i hphase
      split
      · exact h.sendto hphase hsplit
      · exact h
    · exact h
  | leave =>
    simp only [Vm.act]
    split
    · rename_i hphase
      split
      · exact h
      · rename_i hend
        exact h.complete hphase hend
    · rename_i hphase
      exact h.cut hphase
    · exact h

theorem Invariant.wholePackets (h : Invariant vm) (client : Int) : WholePackets vm client := by
  by_cases hc : ∀ buffer written, vm.phase.current = some (buffer, written) → 0 < written →
      client ≠ vm.last
  · exact ⟨vm.received client, [], (List.append_nil _).symm, h.others client hc, Or.inl rfl⟩
  · push Not at hc
    obtain ⟨buffer, written, hcurrent, hpos, rfl⟩ := hc
    rcases h.partly buffer written hcurrent hpos with ⟨-, done, hreceived, hdone, htarget | hstop⟩
    · exact ⟨done, buffer.take written, hreceived, hdone,
        Or.inr ⟨htarget, buffer, written, hcurrent, rfl⟩⟩
    · refine ⟨vm.received vm.last, [], (List.append_nil _).symm, ?_, Or.inl rfl⟩
      obtain ⟨hmem, -, -⟩ := h.fits buffer written hcurrent
      rw [hreceived] at hstop ⊢
      exact hdone.part hmem hstop

end Step

/-- **Clients see whole packets as long as no packet changes hands**: in every run in which no
`sendto` continues a packet to another client than the one that got the bytes before, what any
client got from any VM is whole packets in every state, apart from those cut where it stopped
being the target. -/
theorem whole_packets (events : List (Int × Action))
    (hsame : ∀ k e, events[k]? = some e → ¬ Splits (stateAt step .initial events k e.1) e.2)
    (k : Nat) (hk : k ≤ events.length) (id client : Int) :
    WholePackets (stateAt step .initial events k id) client := by
  have hinv : ∀ id, Invariant (stateAt step .initial events k id) := by
    have hinitial : ∀ id, Invariant (State.initial id) := fun _ => .initial
    refine stateAt_invariant (fun s : State => ∀ id, Invariant (s id)) hinitial
      (fun k e he h id => ?_) k hk
    rw [stateAt_succ he]
    by_cases hid : id = e.1
    · simp only [step, hid, Function.update_self]
      exact (h e.1).act (hsame k e he)
    · simp only [step, Function.update_of_ne hid]
      exact h id
  exact (hinv id).wholePackets client

/-- A packet of 532 bytes. -/
def sample : List UInt8 := packet (zeroed 1)

/-- Client 6 takes over after a packet. -/
def calmRun : List (Int × Action) :=
  [(0, .updateForwardFd 5), (0, .packet sample), (0, .sendto 532), (0, .leave),
    (0, .updateForwardFd 6)]

theorem whole_packets_calmRun : WholePackets (stateAt step .initial calmRun 5 0) 5 := by
  refine whole_packets calmRun (fun k e he hsplit => ?_) 5 (by decide) 0 5
  obtain ⟨buffer, written, w, hphase, hpos, ha, -⟩ := hsplit
  rcases k with _ | _ | _ | _ | _ | k
  · cases he
    cases ha
  · cases he
    cases ha
  · cases he
    have hfresh : (stateAt step .initial calmRun 2 0).phase = .forwarding sample 0 := by
      decide +kernel
    cases hfresh.symm.trans hphase
    cases hpos
  · cases he
    cases ha
  · cases he
    cases ha
  · cases he

/-- Client 6 takes over within a packet. -/
def takeoverRun : List (Int × Action) :=
  [(0, .updateForwardFd 5), (0, .packet sample), (0, .sendto 1), (0, .updateForwardFd 6),
    (0, .sendto 531), (0, .leave)]

/-- What is whole begins like a packet. -/
theorem Whole.head_eq {packets : List (List UInt8)} {stops : List Nat} {bytes : List UInt8}
    {b : UInt8} (h : Whole packets stops bytes)
    (hpackets : ∀ packet ∈ packets, packet.head? = some b) :
    bytes = [] ∨ bytes.head? = some b := by
  induction h with
  | nil => exact Or.inl rfl
  | packet _ hmem ih =>
    rcases ih with rfl | hhead
    · exact Or.inr (hpackets _ hmem)
    · rw [List.head?_append, hhead]
      exact Or.inr rfl
  | @cut bytes part rest _ hmem _ ih =>
    rcases ih with rfl | hhead
    · cases part with
      | nil => exact Or.inl rfl
      | cons c part => exact Or.inr (hpackets (c :: part ++ rest) hmem)
    · rw [List.head?_append, hhead]
      exact Or.inr rfl

/-- It gets the end of the packet only. -/
theorem not_wholePackets_takeoverRun :
    ¬ WholePackets (stateAt step .initial takeoverRun 6 0) 6 := by
  have hphase : (stateAt step .initial takeoverRun 6 0).phase = .reading := by decide +kernel
  have hpackets : (stateAt step .initial takeoverRun 6 0).packets = [sample] := by
    decide +kernel
  have hreceived : ((stateAt step .initial takeoverRun 6 0).received 6).head? = some 0 := by
    decide +kernel
  rintro ⟨done, part, heq, hdone, hpart⟩
  obtain rfl : part = [] := by
    rcases hpart with hpart | ⟨-, buffer, written, hcurrent, -⟩
    · exact hpart
    · rw [hphase] at hcurrent
      cases hcurrent
  rw [List.append_nil] at heq
  rw [hpackets] at hdone
  have hone : ∀ packet ∈ [sample], packet.head? = some 1 := by decide +kernel
  rcases hdone.head_eq hone with rfl | hhead
  · rw [heq] at hreceived
    cases hreceived
  · rw [heq, hhead] at hreceived
    cases hreceived

end LoPhi.Server.Takeover
