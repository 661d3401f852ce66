import LoPhi.Memory.Agreement
import LoPhi.Memory.Connection

/-! # A guest that goes away

On each connection a finite number of bytes arrives, then `recv` returns the empty string. The
loop over `recv` takes that for progress to come: it ends only when the answer is complete, so a
call returns in every case only if each connection has enough bytes for all the attempts that may
be made on it. -/

namespace LoPhi.Memory.Closing
open LoPhi.Lib.Interaction LoPhi.Lib.Python
open LoPhi.Memory.Virtual LoPhi.Memory.Agreement LoPhi.Memory.Connection

/-- A hypervisor that sends some bytes on each connection and closes it. -/
def closing (opens : Nat → Bool) (streams : Nat → List UInt8) : Peer where
  opens := opens
  stream := streams
  reply _ _ := []

/-- With `done` bytes of an attempt read, what is coming is enough for this attempt and all of
`m` with it: `read_len + 1` bytes for each, or for the last one a single `0xff`, which is then
taken for a whole answer. -/
def Feeds (readLen m done : Nat) (coming : List UInt8) : Prop :=
  m * (readLen + 1) ≤ done + coming.length ∨
    done + coming.length + readLen = m * (readLen + 1) ∧ coming.getLast? = some 0xff

variable {readLen : Nat} {opens : Nat → Bool} {streams : Nat → List UInt8}

/-! ## Enough bytes -/

theorem Feeds.mono {m m' done : Nat} {coming : List UInt8} (h : Feeds readLen m done coming)
    (hle : m' ≤ m) : Feeds readLen m' done coming := by
  rcases Nat.lt_or_eq_of_le hle with hlt | rfl
  · have hmul : (m' + 1) * (readLen + 1) ≤ m * (readLen + 1) := Nat.mul_le_mul_right _ hlt
    rw [Nat.succ_mul] at hmul
    refine .inl ?_
    rcases h with h | ⟨h, -⟩ <;> omega
  · exact h

section Recv
variable {m k : Nat} {read coming : List UInt8}

theorem length_take_drop (coming : List UInt8) (k : Nat) :
    (coming.take k).length + (coming.drop k).length = coming.length := by
  rw [← List.length_append, List.take_append_drop]

theorem mul_pos_eq (readLen : Nat) (hm : 0 < m) :
    m * (readLen + 1) = (m - 1) * (readLen + 1) + (readLen + 1) := by
  rw [← Nat.succ_mul, Nat.succ_eq_add_one, Nat.sub_add_cancel hm]

theorem Feeds.ne_nil (h : Feeds readLen m read.length coming) (hm : 0 < m)
    (hread : read.length < readLen + 1) : coming ≠ [] := by
  have hmul := mul_pos_eq readLen hm
  rcases h with h | ⟨-, hlast⟩
  · rw [← List.length_pos_iff]
    omega
  · rintro rfl
    cases hlast

/-- The answer is not complete yet. -/
theorem Feeds.more (h : Feeds readLen m read.length coming) (hm : 0 < m)
    (hshort : read ++ coming.take k ≠ [0xff])
    (hmore : (read ++ coming.take k).length < readLen + 1) :
    Feeds readLen m (read ++ coming.take k).length (coming.drop k) := by
  have hsplit := length_take_drop coming k
  have hmul := mul_pos_eq readLen hm
  rw [List.length_append] at hmore ⊢
  rcases h with h | ⟨h, hlast⟩
  · exact .inl (by omega)
  · refine .inr ⟨by omega, ?_⟩
    rw [List.getLast?_drop, if_neg ?_, hlast]
    intro hle
    -- all of it was taken: the last attempt began with a single `0xff`
    rw [List.take_of_length_le hle] at hshort hmore
    have hone : m - 1 = 0 := by
      by_contra hne
      have hbig := mul_pos_eq readLen (Nat.pos_of_ne_zero hne)
      omega
    rw [hone, Nat.zero_mul] at hmul
    have hpos := List.length_pos_iff.mpr (fun hnil : coming = [] => by
      rw [hnil] at hlast
      cases hlast)
    have hread : read = [] := List.eq_nil_of_length_eq_zero (by omega)
    obtain ⟨b, hb⟩ := List.length_eq_one_iff.mp (show coming.length = 1 by omega)
    rw [hb] at hlast
    rw [hread, hb] at hshort
    exact hshort (congrArg (· :: []) (Option.some.inj hlast))

/-- The answer is complete. -/
theorem Feeds.received (h : Feeds readLen m read.length coming) (hlen : 1 ≤ readLen)
    (hm : 0 < m) (hfull : (read ++ coming.take k).length = readLen + 1) :
    Feeds readLen (m - 1) 0 (coming.drop k) := by
  have hsplit := length_take_drop coming k
  have hmul := mul_pos_eq readLen hm
  rw [List.length_append] at hfull
  rcases h with h | ⟨h, hlast⟩
  · exact .inl (by omega)
  · refine .inr ⟨by omega, ?_⟩
    rw [List.getLast?_drop, if_neg ?_, hlast]
    intro hle
    rw [List.drop_of_length_le hle, List.length_nil] at hsplit
    rcases Nat.eq_zero_or_pos (m - 1) with hone | hpos
    · rw [hone, Nat.zero_mul] at hmul
      omega
    · have hbig := mul_pos_eq readLen hpos
      omega

/-- The first byte is taken for the whole answer. -/
theorem Feeds.shortcut (h : Feeds readLen m read.length coming) (hm : 0 < m)
    (hshort : read ++ coming.take k = [0xff]) : Feeds readLen (m - 1) 0 (coming.drop k) := by
  have hsplit := length_take_drop coming k
  have hmul := mul_pos_eq readLen hm
  have hone := congrArg List.length hshort
  rw [List.length_append, List.length_singleton] at hone
  refine .inl ?_
  rcases h with h | ⟨h, -⟩ <;> omega

end Recv

/-! ## Every call returns -/

/-- Between the steps of a call: this connection has enough bytes for the attempts left, and every
attempt has opened at most one. -/
structure Supplied (readLen : Nat) (c : Call) : Prop where
  retry : c.retry < 3
  log : c.log.length = c.retry
  atEnd : c.atEnd = false
  length : c.read.length < readLen + 1
  long : 2 ^ 31 ≤ readLen + 1 → c.read = []
  opened : c.opened ≤ c.retry + 1
  sock : ∃ coming, c.sock = some coming ∧
    (readLen + 1 < 2 ^ 31 → Feeds readLen (3 - c.retry) c.read.length coming)

/-- A call is between steps as described, or has returned. -/
def Returns (readLen : Nat) : Progress Call End → Prop
  | .waiting c => Supplied readLen c
  | .ended r => (∃ data, r.1 = .ok data) ∧ r.2.length ≤ 3

section Steps
variable {c : Call}

theorem Supplied.fits (h : Supplied readLen c) (hfew : readLen + 1 - c.read.length < 2 ^ 31) :
    readLen + 1 < 2 ^ 31 := by
  by_contra hbig
  rw [h.long (by omega)] at hfew
  exact hbig hfew

theorem returns_attempt
    (hfeeds : readLen + 1 < 2 ^ 31 → ∀ i < 3, Feeds readLen (3 - i) 0 (streams i))
    (hretry : c.retry ≤ 3) (hlog : c.log.length = c.retry)
    (hsock : c.opened ≤ c.retry + 1 ∧ (∃ coming, c.sock = some coming ∧
        (readLen + 1 < 2 ^ 31 → Feeds readLen (3 - c.retry) 0 coming)) ∨
      c.opened ≤ c.retry ∧ c.sock = none) :
    Returns readLen (c.attempt (closing opens streams) readLen) := by
  rcases Nat.lt_or_eq_of_le hretry with hlt | hover
  · rcases hsock with ⟨hopened, coming, hsock, hcoming⟩ | ⟨hopened, hsock⟩
    · rw [attempt_open hlt hsock]
      exact ⟨hlt, hlog, rfl, Nat.succ_pos _, fun _ => rfl, hopened, coming, rfl, hcoming⟩
    · rw [attempt_closed hlt hsock]
      split
      · refine ⟨hlt, hlog, rfl, Nat.succ_pos _, fun _ => rfl, Nat.succ_le_succ hopened, _, rfl,
          fun hfit => ?_⟩
        have hle : 3 - c.retry ≤ 3 - c.opened := by omega
        exact (hfeeds hfit c.opened (by omega)).mono hle
      · exact ⟨⟨_, rfl⟩, hlog.trans_le hretry⟩
  · rw [attempt_over hover]
    exact ⟨⟨_, rfl⟩, hlog.trans_le hretry⟩

theorem Supplied.step (h : Supplied readLen c)
    (hfeeds : readLen + 1 < 2 ^ 31 → ∀ i < 3, Feeds readLen (3 - i) 0 (streams i))
    (hlen : 1 ≤ readLen) (message : List UInt8) (e : Event) :
    Returns readLen (c.step (closing opens streams) message readLen e) := by
  have hretry := h.retry
  obtain ⟨coming, hsock, hcoming⟩ := h.sock
  have hlog : c.log.length + 1 = c.retry + 1 := congrArg (· + 1) h.log
  rcases step_cases (closing opens streams) message readLen h.atEnd e with
    hstep | ⟨hsent, hstep⟩ | ⟨hsent, hfew, count, -, hstep⟩
  · rw [hstep]
    exact returns_attempt hfeeds hretry hlog (.inr ⟨h.opened, rfl⟩)
  · rw [hstep]
    refine ⟨hretry, h.log, h.atEnd, h.length, h.long, h.opened, coming, ?_, hcoming⟩
    show c.sock.map (· ++ []) = _
    rw [hsock, Option.map_some, List.append_nil]
  · have hfit := h.fits hfew
    have hmany : 0 < 3 - c.retry := by omega
    have hnext : 3 - (c.retry + 1) = 3 - c.retry - 1 := by omega
    have hfed := hcoming hfit
    rw [hstep]
    obtain ⟨k, hk, ⟨hshort, hrecv⟩ | ⟨hshort, hmore, hrecv⟩ | ⟨-, hfull, hrecv⟩⟩ :=
      recv_cases (closing opens streams) hsock h.length hfew count
    · rw [hrecv]
      refine returns_attempt hfeeds hretry hlog
        (.inl ⟨Nat.le_succ_of_le h.opened, _, rfl, fun _ => ?_⟩)
      exact hnext ▸ hfed.shortcut hmany hshort
    · rw [hrecv]
      refine ⟨hretry, h.log, ?_, hmore, fun hbig => absurd hfit (by omega), h.opened, _, rfl,
        fun _ => hfed.more hmany hshort hmore⟩
      exact List.isEmpty_eq_false_iff.mpr (hfed.ne_nil hmany h.length)
    · rw [hrecv]
      refine returns_attempt hfeeds hretry hlog
        (.inl ⟨Nat.le_succ_of_le h.opened, _, rfl, fun _ => ?_⟩)
      exact hnext ▸ hfed.received hlen hmany hfull

end Steps

/-- With enough bytes on every connection a call returns, whatever its `send`s and `recv`s do. -/
theorem run_returns {address : Nat} (hrep : Representable address readLen) (hlen : 1 ≤ readLen)
    (hfeeds : readLen + 1 < 2 ^ 31 → ∀ i < 3, Feeds readLen (3 - i) 0 (streams i))
    (opens : Nat → Bool) (world : Nat → Event) :
    ∃ n data log, run (closing opens streams) world address readLen n = .ended (.ok data, log) ∧
      log.length ≤ 3 := by
  unfold run
  rw [packRequest_eq hrep]
  dsimp only
  have hstart : Returns readLen (Call.attempt (closing opens streams) readLen {}) :=
    returns_attempt hfeeds (by decide) rfl (.inr ⟨Nat.le_refl _, rfl⟩)
  obtain ⟨n, r, hr, ⟨data, hdata⟩, hlog⟩ := exists_ended_invariant Nat.lt_wfRel.wf
    (Call.left readLen) (Returns readLen) hstart
    (fun n c _ hc => hc.step hfeeds hlen (message address readLen) (world n))
    fun n c c' _ hc hstep => by
      obtain ⟨coming, hsock, hcoming⟩ := hc.sock
      have hretry := hc.retry
      refine step_left hretry hc.atEnd hsock hc.length (fun _ hfew => ?_) hstep
      exact (hcoming (hc.fits hfew)).ne_nil (by omega) hc.length
  exact ⟨n, data, r.2, by rw [hr, ← hdata], hlog⟩

/-! ## A call that does not return -/

/-- Every connection opens, the first `i` attempts fail at their `send`, and after that every
`recv` takes all it can. -/
def greedy (readLen i n : Nat) : Event := if n < i then .raised else .done (readLen + 1)

/-- An attempt is about to read from a connection that has too little for the attempts left, or
waits for bytes that do not come. -/
inductive Hungry (readLen : Nat) (c : Call) : Prop where
  | fresh (coming : List UInt8) (hretry : c.retry < 3) (hend : c.atEnd = false)
      (hread : c.read = []) (hsock : c.sock = some coming)
      (hfeeds : ¬ Feeds readLen (3 - c.retry) 0 coming)
  | stuck (hstuck : c.Stuck readLen)

/-- The call waits, and hungrily. -/
def Starves (readLen : Nat) : Progress Call End → Prop
  | .waiting c => Hungry readLen c
  | .ended _ => False

theorem Starves.waiting {p : Progress Call End} (h : Starves readLen p) :
    ∃ c, p = .waiting c := by
  cases p with
  | waiting c => exact ⟨c, rfl⟩
  | ended r => exact h.elim

section Greedy
variable {c : Call}

theorem starves_attempt {coming : List UInt8} (hretry : c.retry ≤ 3)
    (hsock : c.sock = some coming) (hfeeds : ¬ Feeds readLen (3 - c.retry) 0 coming) :
    Starves readLen (c.attempt (closing opens streams) readLen) := by
  rcases Nat.lt_or_eq_of_le hretry with hlt | hover
  · rw [attempt_open hlt hsock]
    exact .fresh coming hlt rfl rfl rfl hfeeds
  · refine absurd (.inl ?_) hfeeds
    rw [hover, Nat.sub_self, Nat.zero_mul]
    exact Nat.zero_le _

/-- A whole answer taken from too little leaves too little. -/
theorem not_feeds_drop {m : Nat} {coming : List UInt8} (hm : 0 < m)
    (hfull : readLen + 1 ≤ coming.length) (h : ¬ Feeds readLen m 0 coming) :
    ¬ Feeds readLen (m - 1) 0 (coming.drop (readLen + 1)) := by
  have hmul := mul_pos_eq readLen hm
  intro hdrop
  refine h ?_
  rcases hdrop with hdrop | ⟨hdrop, hlast⟩
  · rw [List.length_drop] at hdrop
    exact .inl (by omega)
  · rw [List.length_drop] at hdrop
    rw [List.getLast?_drop] at hlast
    split at hlast
    · cases hlast
    · exact .inr ⟨by omega, hlast⟩

/-- A single `0xff` is enough for one attempt only. -/
theorem not_feeds_single {m : Nat} {coming : List UInt8} (hlen : 1 ≤ readLen) (hm : 0 < m)
    (hshort : coming.take (readLen + 1) = [0xff]) (h : ¬ Feeds readLen m 0 coming) :
    ¬ Feeds readLen (m - 1) 0 (coming.drop (readLen + 1)) := by
  have hone := congrArg List.length hshort
  rw [List.length_take, List.length_singleton] at hone
  have hall : coming.length ≤ readLen + 1 := by omega
  rw [List.take_of_length_le hall] at hshort
  subst hshort
  have hmany : 0 < m - 1 := by
    refine Nat.pos_of_ne_zero fun hlast => h (.inr ⟨?_, rfl⟩)
    rw [mul_pos_eq readLen hm, hlast, Nat.zero_mul, List.length_singleton]
    omega
  have hmul := mul_pos_eq readLen hmany
  rw [List.drop_of_length_le hall]
  rintro (hfew | ⟨-, hlast⟩)
  · rw [List.length_nil] at hfew
    omega
  · cases hlast

theorem Hungry.step (h : Hungry readLen c) (hlen : 1 ≤ readLen) (hfit : readLen + 1 < 2 ^ 31)
    (message : List UInt8) :
    Starves readLen (c.step (closing opens streams) message readLen (.done (readLen + 1))) := by
  cases h with
  | fresh coming hretry hend hread hsock hfeeds =>
    have hlimit : readLen + 1 - c.read.length = readLen + 1 := by
      rw [hread]
      rfl
    have hmany : 0 < 3 - c.retry := by omega
    rw [step_done _ _ _ hend]
    split
    · rename_i hsent
      obtain ⟨k, hk, hcases⟩ := recv_cases (closing opens streams) hsock
        (by rw [hread]; exact Nat.succ_pos _) (hlimit.trans_lt hfit) (readLen + 1)
      obtain rfl : k = readLen + 1 := by omega
      rw [hread, List.nil_append] at hcases
      rcases hcases with ⟨hshort, hrecv⟩ | ⟨hshort, hmore, hrecv⟩ | ⟨-, hfull, hrecv⟩
      · rw [hrecv]
        refine starves_attempt hretry rfl ?_
        show ¬ Feeds readLen (3 - (c.retry + 1)) 0 _
        rw [← Nat.sub_sub]
        exact not_feeds_single hlen hmany hshort hfeeds
      · have hall : coming.length ≤ readLen + 1 := by
          rw [List.length_take] at hmore
          omega
        rw [List.take_of_length_le hall] at hshort hmore
        rw [hrecv]
        unfold Call.take
        rw [hread, List.nil_append, List.take_of_length_le hall, List.drop_of_length_le hall]
        exact .stuck ⟨hsent, rfl, hmore, hshort⟩
      · rw [List.length_take] at hfull
        rw [hrecv]
        refine starves_attempt hretry rfl ?_
        show ¬ Feeds readLen (3 - (c.retry + 1)) 0 _
        rw [← Nat.sub_sub]
        exact not_feeds_drop hmany (by omega) hfeeds
    · refine .fresh coming hretry hend hread ?_ hfeeds
      show c.sock.map (· ++ []) = _
      rw [hsock, Option.map_some, List.append_nil]
  | stuck hstuck =>
    obtain ⟨c', hstep, hstuck'⟩ := hstuck.step (closing opens streams) message hfit (readLen + 1)
    rw [hstep]
    exact .stuck hstuck'

end Greedy

/-- The first attempts fail, each on a connection of its own. -/
theorem greedy_start (message : List UInt8) {i : Nat} (hi : i < 3) {j : Nat} (hj : j ≤ i) :
    after (Call.step (closing (fun _ => true) streams) message readLen)
        (fun n _ => greedy readLen i n)
        (Call.attempt (closing (fun _ => true) streams) readLen {}) j =
      .waiting { retry := j, sock := some (streams j), opened := j + 1
                 log := List.replicate j .failed } := by
  induction j with
  | zero => rfl
  | succ j ih =>
    rw [after_waiting (ih (by omega)), greedy, if_pos (show j < i from hj)]
    show Call.attempt _ _ _ = _
    rw [attempt_closed (show j + 1 < 3 by omega) rfl]
    rfl

/-- On a connection with too little the call goes on for ever. -/
theorem greedy_waits {address i : Nat} (hrep : Representable address readLen)
    (hlen : 1 ≤ readLen) (hfit : readLen + 1 < 2 ^ 31) (hi : i < 3)
    (hfeeds : ¬ Feeds readLen (3 - i) 0 (streams i)) (n : Nat) :
    ∃ c, run (closing (fun _ => true) streams) (greedy readLen i) address readLen n =
      .waiting c := by
  unfold run
  rw [packRequest_eq hrep]
  dsimp only
  refine waiting_of_later (m := i) (fun n => ?_) n
  rw [after_add, greedy_start _ hi (Nat.le_refl i)]
  have hstarves : Starves readLen (after
      (Call.step (closing (fun _ => true) streams) (message address readLen) readLen)
      (fun k _ => greedy readLen i (i + k))
      (.waiting { retry := i, sock := some (streams i), opened := i + 1
                  log := List.replicate i .failed }) n) := by
    refine after_invariant _ (.fresh (streams i) hi rfl rfl rfl hfeeds) (fun k c _ hc => ?_) n
    rw [greedy, if_neg (by omega)]
    exact hc.step hlen hfit _
  exact hstarves.waiting

/-- **A call on a guest that goes away returns whatever its `send`s and `recv`s do if and only if
its request fits and** it cannot be received, or every connection has enough bytes for all the
attempts that can be made on it. -/
theorem returns_iff_fed (address : Nat) (hlen : 1 ≤ readLen) (streams : Nat → List UInt8) :
    (∀ opens world, ∃ n data log,
        run (closing opens streams) world address readLen n = .ended (.ok data, log) ∧
          log.length ≤ 3) ↔
      Representable address readLen ∧
        (2 ^ 31 ≤ readLen + 1 ∨ ∀ i < 3, Feeds readLen (3 - i) 0 (streams i)) := by
  constructor
  · intro h
    have hrep : Representable address readLen := by
      by_contra hrep
      obtain ⟨n, data, log, hrun, -⟩ := h (fun _ => true) fun _ => .raised
      unfold run at hrun
      rw [packRequest_error hrep] at hrun
      cases hrun
    refine ⟨hrep, ?_⟩
    by_contra hcond
    rw [not_or, not_forall] at hcond
    obtain ⟨hfit, i, hi⟩ := hcond
    rw [Classical.not_imp] at hi
    obtain ⟨n, data, log, hrun, -⟩ := h (fun _ => true) (greedy readLen i)
    obtain ⟨c, hc⟩ := greedy_waits hrep hlen (by omega) hi.1 hi.2 n
    rw [hc] at hrun
    cases hrun
  · rintro ⟨hrep, hcond⟩ opens world
    refine run_returns hrep hlen (fun hfit => ?_) opens world
    exact hcond.resolve_left (by omega)

/-- Two bytes are asked for, and nine are there on each connection. -/
theorem returns_with_enough :
    1 ≤ 2 ∧ ∀ opens world, ∃ n data log,
      run (closing opens fun _ => List.replicate 9 0) world 0x1000 2 n = .ended (.ok data, log) ∧
        log.length ≤ 3 :=
  ⟨by decide, (returns_iff_fed 0x1000 (by decide) fun _ => List.replicate 9 0).mpr
    ⟨⟨by decide, by decide⟩, .inr fun i hi => .inl (show (3 - i) * 3 ≤ 9 by omega)⟩⟩

/-- A guest that is gone: `recv` returns the empty string for ever. -/
theorem gone_guest_never_returns :
    ¬ ∀ (address readLen : Nat) (streams : Nat → List UInt8) (opens : Nat → Bool)
      (world : Nat → Event), 1 ≤ readLen →
      ∃ n data log, run (closing opens streams) world address readLen n = .ended (.ok data, log) ∧
        log.length ≤ 3 := by
  intro h
  obtain ⟨n, data, log, hrun, -⟩ :=
    h 0x1000 1 (fun _ => []) (fun _ => true) (greedy 1 0) (by decide)
  have hempty : ¬ Feeds 1 3 0 [] := by
    rintro (hfew | ⟨-, hlast⟩)
    · exact absurd hfew (by decide)
    · cases hlast
  have hwaits : ∃ c, run (closing (fun _ => true) fun _ => []) (greedy 1 0) 0x1000 1 n =
      .waiting c :=
    greedy_waits ⟨by decide, by decide⟩ (by decide) (by decide) (by decide) hempty n
  obtain ⟨c, hc⟩ := hwaits
  rw [hc] at hrun
  cases hrun

end LoPhi.Memory.Closing
