import LoPhi.Memory.Agreement
import LoPhi.Memory.Connection

/-! # Connections that do not fail

On sockets that open, raise nothing and are never closed, the call over connections does what
`readFromSensor` says of a reliable stream. -/

namespace LoPhi.Memory.Reliable
open LoPhi.Lib.Interaction LoPhi.Lib.Python
open LoPhi.Memory.Virtual LoPhi.Memory.Agreement LoPhi.Memory.Connection

/-- A hypervisor that can always be reached. -/
def reliable (h : Hypervisor) : Peer where
  opens _ := true
  stream _ := []
  reply := connectionHandler h

/-- Every `send` and `recv` is done, the `t`-th `recv` with as many bytes as scheduled. -/
def scheduled (sched : Nat → Nat) (n : Nat) (c : Call) : Event := .done (sched (n - c.requests))

/-- A call that waits in a `recv` on the connection. -/
structure Mirrors (link : Link) (c : Call) : Prop where
  sent : c.sent = true
  atEnd : c.atEnd = false
  short : c.read ≠ [0xff]
  sock : c.sock = some link.pending
  requests : c.requests = link.requests

/-- A call between two attempts. -/
structure Between (link : Link) (read : List UInt8) (retry : Nat) (c : Call) : Prop where
  retry : c.retry = retry
  read : c.read = read
  sock : c.sock = some link.pending ∨ c.sock = none ∧ link.pending = []
  requests : c.requests = link.requests

section Attempt
variable {h : Hypervisor} {sched : Nat → Nat} {message : List UInt8} {readLen : Nat}
  {link link' : Link} {read read' : List UInt8} {c : Call}

/-- The call from `p` on, after as many `send`s and `recv`s as `link` says. -/
def onward (h : Hypervisor) (sched : Nat → Nat) (message : List UInt8) (readLen : Nat)
    (link : Link) (p : Progress Call End) (n : Nat) : Progress Call End :=
  after (Call.step (reliable h) message readLen)
    (fun k => scheduled sched (link.requests + link.recvs + k)) p n

/-- From one place of the call to another. -/
def Leads (h : Hypervisor) (sched : Nat → Nat) (message : List UInt8) (readLen : Nat)
    (link : Link) (p : Progress Call End) (link' : Link) (p' : Progress Call End) : Prop :=
  ∃ n, link.requests + link.recvs + n = link'.requests + link'.recvs ∧
    onward h sched message readLen link p n = p'

theorem onward_add {p p' : Progress Call End} {m : Nat}
    (hm : link.requests + link.recvs + m = link'.requests + link'.recvs)
    (hp : onward h sched message readLen link p m = p') (n : Nat) :
    onward h sched message readLen link p (m + n) =
      onward h sched message readLen link' p' n := by
  subst hp
  unfold onward
  rw [after_add]
  simp only [← Nat.add_assoc, hm]

theorem Leads.trans {link'' : Link} {p p' p'' : Progress Call End}
    (h₁ : Leads h sched message readLen link p link' p')
    (h₂ : Leads h sched message readLen link' p' link'' p'') :
    Leads h sched message readLen link p link'' p'' := by
  obtain ⟨m, hm, hp⟩ := h₁
  obtain ⟨n, hn, hp'⟩ := h₂
  exact ⟨m + n, by omega, (onward_add hm hp n).trans hp'⟩

/-- What goes on for ever after it goes on for ever before it. -/
theorem Leads.waits {p p' : Progress Call End}
    (hleads : Leads h sched message readLen link p link' p')
    (hwaits : ∀ n, ∃ c, onward h sched message readLen link' p' n = .waiting c) (n : Nat) :
    ∃ c, onward h sched message readLen link p n = .waiting c := by
  obtain ⟨m, hm, hp⟩ := hleads
  refine waiting_of_later (m := m) (fun n => ?_) n
  obtain ⟨c, hc⟩ := hwaits n
  exact ⟨c, (onward_add hm hp n).trans hc⟩

/-! ## The loop over `recv` -/

theorem min_recvCount {limit waiting : Nat} (hwaiting : 0 < waiting) (t : Nat) :
    recvCount sched t limit waiting = min (max 1 (min (sched t) limit)) waiting := by
  unfold recvCount
  omega

theorem step_mirrors (hm : Mirrors link c) :
    c.step (reliable h) message readLen (scheduled sched (link.requests + link.recvs) c) =
      c.recv (reliable h) readLen (sched link.recvs) := by
  unfold scheduled
  rw [step_done _ _ _ hm.atEnd, if_pos hm.sent, hm.requests, Nat.add_sub_cancel_left]

theorem leads_recv (hm : Mirrors link c) {pending : List UInt8} {p : Progress Call End}
    (hrecv : c.recv (reliable h) readLen (sched link.recvs) = p) :
    Leads h sched message readLen link (.waiting c)
      { link with pending := pending, recvs := link.recvs + 1 } p :=
  ⟨1, by dsimp only; omega, (after_waiting rfl).trans ((step_mirrors hm).trans hrecv)⟩

/-- A turn of the loop, here and there: the answer is complete, or the loop goes on. -/
theorem recvLoop_turn (h : Hypervisor) (message : List UInt8) (fuel : Nat)
    (hm : Mirrors link c) (hread : c.read.length < readLen + 1)
    (hlen : readLen + 1 < 2 ^ 31) (hpending : link.pending ≠ []) :
    ∃ (read₁ : List UInt8) (link₁ : Link),
      recvLoop sched readLen (fuel + 1) link c.read = recvLoop sched readLen fuel link₁ read₁ ∧
      ((∃ d : Call, Between link₁ read₁ (c.retry + 1) d ∧ readLen + 1 ≤ read₁.length ∧
          Leads h sched message readLen link (.waiting c) link₁
            (d.attempt (reliable h) readLen)) ∨
        ∃ c₁ : Call, Mirrors link₁ c₁ ∧ c₁.retry = c.retry ∧ c₁.read = read₁ ∧
          c.read.length < read₁.length ∧ read₁.length < readLen + 1 ∧
          Leads h sched message readLen link (.waiting c) link₁ (.waiting c₁)) := by
  have hpos := List.length_pos_iff.mpr hpending
  obtain ⟨k, hk, hcases⟩ := recv_cases (reliable h) hm.sock hread (by omega) (sched link.recvs)
  have hloop : recvLoop sched readLen (fuel + 1) link c.read = recvLoop sched readLen fuel
      { link with pending := link.pending.drop k, recvs := link.recvs + 1 }
      (if c.read ++ link.pending.take k = [0xff] then List.replicate readLen 0xff ++ [1]
        else c.read ++ link.pending.take k) := by
    rw [recvLoop, if_pos hread, if_neg hpending]
    dsimp only
    rw [min_recvCount hpos, ← List.take_eq_take_min, ← List.drop_eq_drop_min, ← hk]
  refine ⟨_, _, hloop, ?_⟩
  rcases hcases with ⟨hshort, hrecv⟩ | ⟨hshort, hmore, hrecv⟩ | ⟨hshort, hfull, hrecv⟩
  · rw [if_pos hshort]
    exact .inl ⟨(c.take link.pending k).finish _ .shortcut, ⟨rfl, rfl, .inl rfl, hm.requests⟩,
      by simp, leads_recv hm hrecv⟩
  · rw [if_neg hshort]
    refine .inr ⟨c.take link.pending k, ⟨hm.sent, ?_, hshort, rfl, hm.requests⟩, rfl, rfl, ?_,
      hmore, leads_recv hm hrecv⟩
    · exact List.isEmpty_eq_false_iff.mpr hpending
    · rw [List.length_append, List.length_take]
      omega
  · rw [if_neg hshort]
    exact .inl ⟨(c.take link.pending k).finish _ .received, ⟨rfl, rfl, .inl rfl, hm.requests⟩,
      by omega, leads_recv hm hrecv⟩

theorem recvLoop_full (fuel : Nat) (hread : readLen + 1 ≤ read.length) :
    recvLoop sched readLen fuel link read = some (read, link) := by
  cases fuel with
  | zero => rfl
  | succ fuel => exact if_neg (by omega)

/-- A loop that ends leads to the end of the attempt. -/
theorem recvLoop_ends {fuel : Nat} (hm : Mirrors link c)
    (hfuel : readLen + 1 ≤ fuel + c.read.length) (hread : c.read.length < readLen + 1)
    (hlen : readLen + 1 < 2 ^ 31)
    (heq : recvLoop sched readLen fuel link c.read = some (read', link')) :
    ∃ d : Call, Between link' read' (c.retry + 1) d ∧
      Leads h sched message readLen link (.waiting c) link' (d.attempt (reliable h) readLen) := by
  induction fuel generalizing link c with
  | zero => omega
  | succ fuel ih =>
    by_cases hpending : link.pending = []
    · unfold recvLoop at heq
      rw [if_pos hread, if_pos hpending] at heq
      cases heq
    · obtain ⟨read₁, link₁, hloop, ⟨d, hd, hfull, hleads⟩ | ⟨c₁, hm₁, hretry, rfl, hgrow, hmore,
        hleads⟩⟩ := recvLoop_turn h message fuel hm hread hlen hpending
      · rw [hloop, recvLoop_full fuel hfull] at heq
        cases heq
        exact ⟨d, hd, hleads⟩
      · rw [hloop] at heq
        obtain ⟨d, hd, hrest⟩ := ih hm₁ (by omega) hmore heq
        exact ⟨d, hretry ▸ hd, hleads.trans hrest⟩

/-- A loop that blocks never comes to anything. -/
theorem recvLoop_blocks {fuel : Nat} (hm : Mirrors link c)
    (hfuel : readLen + 1 ≤ fuel + c.read.length) (hread : c.read.length < readLen + 1)
    (hlen : readLen + 1 < 2 ^ 31)
    (heq : recvLoop sched readLen fuel link c.read = none) (n : Nat) :
    ∃ c', onward h sched message readLen link (.waiting c) n = .waiting c' := by
  induction fuel generalizing link c n with
  | zero => omega
  | succ fuel ih =>
    by_cases hpending : link.pending = []
    · have hstuck : c.Stuck readLen := ⟨hm.sent, hpending ▸ hm.sock, hread, hm.short⟩
      exact hstuck.waits (reliable h) message hlen (fun n c => ⟨_, rfl⟩) n
    · obtain ⟨read₁, link₁, hloop, ⟨d, hd, hfull, hleads⟩ | ⟨c₁, hm₁, -, rfl, hgrow, hmore,
        hleads⟩⟩ := recvLoop_turn h message fuel hm hread hlen hpending
      · rw [hloop, recvLoop_full fuel hfull] at heq
        cases heq
      · rw [hloop] at heq
        exact hleads.waits (fun n => ih hm₁ (by omega) hmore heq n) n

/-! ## The attempts -/

/-- An attempt begins with the request, and leads into the loop. -/
theorem attempt_mirrors (h : Hypervisor) (sched : Nat → Nat) (message : List UInt8)
    (readLen : Nat) {retry : Nat} (hb : Between link read retry c) (hretry : retry < 3) :
    ∃ c₁ : Call, c₁.retry = retry ∧ c₁.read = [] ∧
      Mirrors { link with
        pending := link.pending ++ connectionHandler h link.requests message
        requests := link.requests + 1 } c₁ ∧
      Leads h sched message readLen link (c.attempt (reliable h) readLen)
        { link with
          pending := link.pending ++ connectionHandler h link.requests message
          requests := link.requests + 1 } (.waiting c₁) := by
  obtain ⟨rfl, -, hsock, hrequests⟩ := hb
  obtain ⟨opened, hbegin⟩ : ∃ opened, c.attempt (reliable h) readLen =
      .waiting (c.begin link.pending opened) := by
    rcases hsock with hsock | ⟨hsock, hnil⟩
    · exact ⟨_, attempt_open hretry hsock⟩
    · rw [attempt_closed hretry hsock, hnil]
      exact ⟨_, rfl⟩
  refine ⟨(c.begin link.pending opened).send (reliable h) message, rfl, rfl,
    ⟨rfl, rfl, List.cons_ne_nil _ _ ∘ Eq.symm, ?_, ?_⟩, 1, by dsimp only; omega, ?_⟩
  · show some (link.pending ++ connectionHandler h c.requests message) = _
    rw [hrequests]
  · show c.requests + 1 = _
    rw [hrequests]
  · rw [hbegin]
    rfl

/-- The attempts lead to the end of the `for` loop. -/
theorem attempts_end {n retry : Nat} (hlen : readLen + 1 < 2 ^ 31)
    (hb : Between link read retry c) (hn : retry + n = 3)
    (heq : attempts h sched message readLen n read link = some (read', link')) :
    ∃ d : Call, Between link' read' 3 d ∧
      Leads h sched message readLen link (c.attempt (reliable h) readLen) link'
        (d.attempt (reliable h) readLen) := by
  induction n generalizing link read c retry with
  | zero =>
    cases heq
    obtain rfl : retry = 3 := hn
    exact ⟨c, hb, 0, rfl, rfl⟩
  | succ n ih =>
    unfold attempts attempt at heq
    rw [if_neg (by omega)] at heq
    obtain ⟨c₁, hretry, hread, hm, hleads⟩ :=
      attempt_mirrors h sched message readLen hb (by omega)
    split at heq
    · cases heq
    · rename_i read₁ link₁ hloop
      rw [← hread] at hloop
      obtain ⟨d, hd, hend⟩ := recvLoop_ends hm (Nat.le_add_right _ _)
        (by rw [hread]; exact Nat.succ_pos _) hlen hloop
      rw [hretry] at hd
      obtain ⟨d', hd', hrest⟩ := ih hd (by omega) heq
      exact ⟨d', hd', hleads.trans (hend.trans hrest)⟩

/-- Attempts that block wait for ever. -/
theorem attempts_block {n retry : Nat} (hlen : readLen + 1 < 2 ^ 31)
    (hb : Between link read retry c) (hn : retry + n = 3)
    (heq : attempts h sched message readLen n read link = none) (m : Nat) :
    ∃ c', onward h sched message readLen link (c.attempt (reliable h) readLen) m =
      .waiting c' := by
  induction n generalizing link read c retry m with
  | zero => cases heq
  | succ n ih =>
    unfold attempts attempt at heq
    rw [if_neg (by omega)] at heq
    obtain ⟨c₁, hretry, hread, hm, hleads⟩ :=
      attempt_mirrors h sched message readLen hb (by omega)
    have hfew : c₁.read.length < readLen + 1 := by
      rw [hread]
      exact Nat.succ_pos _
    refine hleads.waits (fun m => ?_) m
    split at heq
    · rename_i hloop
      rw [← hread] at hloop
      exact recvLoop_blocks hm (Nat.le_add_right _ _) hfew hlen hloop m
    · rename_i read₁ link₁ hloop
      rw [← hread] at hloop
      obtain ⟨d, hd, hend⟩ := recvLoop_ends hm (Nat.le_add_right _ _) hfew hlen hloop
      rw [hretry] at hd
      exact hend.waits (ih hd (by omega) heq) m

end Attempt

/-! ## A call -/

/-- How a call over connections can end as a call on a reliable stream does. -/
def Realizes (peer : Peer) (world : Nat → Event) (address readLen : Nat) : Outcome → Prop
  | .returned data => ∃ n log, run peer world address readLen n = .ended (.ok data, log)
  | .raised e => ∃ n log, run peer world address readLen n = .ended (.error e, log)
  | .blocked => ∀ n, ∃ c, run peer world address readLen n = .waiting c

/-- A request that cannot be received fails every time. -/
theorem long_ends (h : Hypervisor) (message : List UInt8) {readLen n : Nat} {c : Call}
    {w : Nat → Call → Event} (hlen : 2 ^ 31 ≤ readLen + 1) (hn : c.retry + n = 3)
    (hsock : c.sock = none) (hread : c.read = [])
    (hworld : ∀ k c, ∃ count, w k c = .done count) :
    ∃ m log, after (Call.step (reliable h) message readLen) w
      (c.attempt (reliable h) readLen) m = .ended (.ok none, log) := by
  induction n generalizing c w with
  | zero =>
    refine ⟨0, c.log, ?_⟩
    show c.attempt (reliable h) readLen = _
    rw [attempt_over hn, hread]
    rfl
  | succ n ih =>
    have hopen : c.attempt (reliable h) readLen = .waiting (c.begin [] (c.opened + 1)) :=
      attempt_closed (by omega) hsock
    obtain ⟨count, hsend⟩ := hworld 0 (c.begin [] (c.opened + 1))
    obtain ⟨count', hrecv⟩ := hworld 1 ((c.begin [] (c.opened + 1)).send (reliable h) message)
    have hfail : ((c.begin [] (c.opened + 1)).send (reliable h) message).step (reliable h) message
        readLen (.done count') =
          ((c.begin [] (c.opened + 1)).send (reliable h) message).fail (reliable h) readLen :=
      (step_done _ _ _ rfl _).trans (recv_long hlen _)
    obtain ⟨m, log, hm⟩ := ih (c := { (c.begin [] (c.opened + 1)).send (reliable h) message with
        sock := none, retry := c.retry + 1, log := .failed :: c.log })
      (w := fun k => w (k + 2)) (by dsimp only; omega) rfl rfl fun k => hworld (k + 2)
    refine ⟨m + 2, log, ?_⟩
    rw [hopen, after_succ, hsend]
    show after _ _ (.waiting ((c.begin [] (c.opened + 1)).send (reliable h) message)) (m + 1) = _
    rw [after_succ, hrecv, hfail]
    exact hm

/-- **The call over connections does what the call on a reliable stream does** when every
connection opens and every `send` and `recv` is done. -/
theorem exists_realizes (h : Hypervisor) (sched : Nat → Nat) (address readLen : Nat) :
    ∃ world, Realizes (reliable h) world address readLen
      (readFromSensor h sched address readLen) := by
  by_cases hrep : Representable address readLen
  · obtain ⟨world, hworld⟩ := exists_inputs
      (Call.step (reliable h) (message address readLen) readLen) (scheduled sched)
      (Call.attempt (reliable h) readLen {})
    have hrun : ∀ n, run (reliable h) world address readLen n =
        onward h sched (message address readLen) readLen {}
          (Call.attempt (reliable h) readLen {}) n := by
      intro n
      unfold run onward
      rw [packRequest_eq hrep]
      simp only [hworld, Nat.zero_add]
    have hstart : Between {} [] 0 {} := ⟨rfl, rfl, .inr ⟨rfl, rfl⟩, rfl⟩
    refine ⟨world, ?_⟩
    by_cases hlen : readLen + 1 < 2 ^ 31
    · unfold readFromSensor
      rw [packRequest_eq hrep]
      dsimp only
      split
      · rename_i hblock
        intro n
        rw [hrun]
        exact attempts_block hlen hstart rfl hblock n
      · rename_i read link hends
        obtain ⟨d, hd, n, -, hn⟩ := attempts_end hlen hstart rfl hends
        refine ⟨n, d.log, ?_⟩
        rw [hrun, hn, attempt_over hd.retry, hd.read]
    · rw [readFromSensor_unreceivable hrep fun hrec => hlen hrec.2]
      have hends : ∃ m log, after (Call.step (reliable h) (message address readLen) readLen)
          (scheduled sched) (Call.attempt (reliable h) readLen {}) m = .ended (.ok none, log) :=
        long_ends h _ (n := 3) (Nat.le_of_not_lt hlen) rfl rfl rfl fun k c => ⟨_, rfl⟩
      obtain ⟨n, log, hn⟩ := hends
      refine ⟨n, log, ?_⟩
      rw [hrun, ← hn]
      unfold onward
      simp only [Nat.zero_add]
  · refine ⟨fun _ => .raised, ?_⟩
    rw [readFromSensor_unrepresentable hrep]
    refine ⟨0, [], ?_⟩
    unfold run
    rw [packRequest_error hrep]

end LoPhi.Memory.Reliable
