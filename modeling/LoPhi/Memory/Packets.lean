import LoPhi.Memory.Agreement
import LoPhi.Memory.Connection

/-! # Replies in pieces

Every request is answered with the bytes and a one. What arrives on a connection then repeats one
reply, and an attempt reads it from where the last one stopped. That is the beginning of a reply,
except after a first `recv` of just `0xff`: there the attempt stops one byte into the reply, and
every later one on the connection reads the bytes shifted. -/

namespace LoPhi.Memory.Packets
open LoPhi.Lib.Interaction LoPhi.Lib.Python LoPhi.Lib.Window
open LoPhi.Memory.Virtual LoPhi.Memory.Agreement LoPhi.Memory.Connection

/-- A hypervisor that answers every request from the whole range. -/
def answering (mem : Nat → UInt8) (address readLen : Nat) : Peer where
  opens _ := true
  stream _ := []
  reply _ _ := window mem address readLen ++ [1]

/-- How many attempts on the present connection took its first byte for the whole answer. -/
def shortcuts : List Ending → Nat
  | .shortcut :: log => shortcuts log + 1
  | .received :: log => shortcuts log
  | _ => 0

/-- The last attempt received its answer and none before it on its connection left anything over,
or it made up an answer that is right. -/
def Intact (mem : Nat → UInt8) (address readLen : Nat) : List Ending → Prop
  | .received :: log => shortcuts log = 0
  | .shortcut :: _ => ∀ i < readLen, mem (address + i) = 0xff
  | _ => False

variable {mem : Nat → UInt8} {address readLen : Nat}

/-! ## What arrives on a connection -/

/-- The `i`-th byte that arrives on a connection. -/
def arriving (mem : Nat → UInt8) (address readLen i : Nat) : UInt8 :=
  if i % (readLen + 1) = readLen then 1 else mem (address + i % (readLen + 1))

theorem arriving_add (i : Nat) :
    arriving mem address readLen (i + (readLen + 1)) = arriving mem address readLen i := by
  unfold arriving
  rw [Nat.add_mod_right]

theorem arriving_lt {i : Nat} (hi : i < readLen) :
    arriving mem address readLen i = mem (address + i) := by
  unfold arriving
  rw [Nat.mod_eq_of_lt (by omega), if_neg (by omega)]

theorem arriving_status : arriving mem address readLen readLen = 1 := by
  unfold arriving
  rw [Nat.mod_eq_of_lt (by omega), if_pos rfl]

theorem window_arriving : window (arriving mem address readLen) 0 readLen =
    window mem address readLen := by
  have hcongr : window (arriving mem address readLen) 0 readLen =
      window (fun i => mem (address + i)) 0 readLen :=
    window_congr fun x _ hx => arriving_lt (by omega)
  rw [hcongr, window_shift, Nat.add_zero]

/-- The stream repeats itself. -/
theorem window_arriving_add (a n : Nat) :
    window (arriving mem address readLen) (a + (readLen + 1)) n =
      window (arriving mem address readLen) a n := by
  rw [Nat.add_comm, ← window_shift (arriving mem address readLen) (readLen + 1) a n]
  refine window_congr fun x _ _ => ?_
  rw [Nat.add_comm]
  exact arriving_add x

theorem window_arriving_mul (q n : Nat) :
    window (arriving mem address readLen) (q * (readLen + 1)) n =
      window (arriving mem address readLen) 0 n := by
  induction q with
  | zero => rw [Nat.zero_mul]
  | succ q ih => rw [Nat.succ_mul, window_arriving_add, ih]

/-- Another reply continues the stream. -/
theorem window_arriving_reply (k : Nat) :
    window (arriving mem address readLen) k (k * readLen) ++ (window mem address readLen ++ [1]) =
      window (arriving mem address readLen) k (k * readLen + (readLen + 1)) := by
  rw [window_add, Nat.add_comm k, ← Nat.mul_succ, window_arriving_mul, window_add, window_arriving,
    Nat.zero_add, window_succ, arriving_status, window_zero]

/-- Read from behind some bytes `0xff`, a reply is never right: the status byte would come back
in steps of the shift, down to one of those bytes. -/
theorem window_arriving_ne {k : Nat} (hk : 0 < k)
    (hones : ∀ i < k, arriving mem address readLen i = 0xff) :
    window (arriving mem address readLen) k readLen ≠ window mem address readLen := by
  intro heq
  have hback : ∀ i < readLen,
      arriving mem address readLen (k + i) = arriving mem address readLen i := by
    intro i hi
    have hget := congrArg (·[i]?) (heq.trans window_arriving.symm)
    simpa only [getElem?_window hi, Nat.zero_add, Option.some.injEq] using hget
  have hstatus : ∀ j i, i + j * k = readLen → arriving mem address readLen i = 1 := by
    intro j
    induction j with
    | zero =>
      intro i hi
      rw [show i = readLen by omega]
      exact arriving_status
    | succ j ih =>
      intro i hi
      rw [Nat.succ_mul] at hi
      rw [← hback i (by omega)]
      exact ih (k + i) (by omega)
  have hone := hstatus (readLen / k) (readLen % k) (by
    rw [Nat.mul_comm]
    exact Nat.mod_add_div readLen k)
  rw [hones _ (Nat.mod_lt _ hk)] at hone
  cases hone

/-! ## A call -/

/-- Between the steps of a call: an attempt has read the stream from where the last one stopped,
and all that has been sent beyond is still to come. -/
structure Fed (mem : Nat → UInt8) (address readLen : Nat) (c : Call) : Prop where
  retry : c.retry < 3
  atEnd : c.atEnd = false
  unsent : c.sent = false → c.read = []
  length : c.read.length < readLen + 1
  read : c.read = window (arriving mem address readLen) (shortcuts c.log) c.read.length
  sock : c.sock = some (window (arriving mem address readLen)
    (shortcuts c.log + c.read.length)
    (shortcuts c.log * readLen + (if c.sent then readLen + 1 else 0) - c.read.length))
  ones : ∀ i < shortcuts c.log, arriving mem address readLen i = 0xff

/-- A call is between steps as described, or has ended with the right bytes exactly if its
attempts were intact. -/
def Inv (mem : Nat → UInt8) (address readLen : Nat) : Progress Call End → Prop
  | .waiting c => Fed mem address readLen c
  | .ended r => r.1 = .ok (some (window mem address readLen)) ↔ Intact mem address readLen r.2

section Steps
variable {c : Call}

/-- The beginning of an attempt, or the end of the call. -/
theorem inv_attempt (hretry : c.retry ≤ 3)
    (hsock : c.sock = some (window (arriving mem address readLen) (shortcuts c.log)
        (shortcuts c.log * readLen)) ∨ c.sock = none ∧ shortcuts c.log = 0)
    (hones : ∀ i < shortcuts c.log, arriving mem address readLen i = 0xff)
    (hend : extract readLen c.read = some (window mem address readLen) ↔
      Intact mem address readLen c.log) :
    Inv mem address readLen (c.attempt (answering mem address readLen) readLen) := by
  have hbegin : ∀ opened, c.retry < 3 → Fed mem address readLen (c.begin
      (window (arriving mem address readLen) (shortcuts c.log) (shortcuts c.log * readLen))
      opened) := fun opened hlt => ⟨hlt, rfl, fun _ => rfl, Nat.succ_pos _, rfl, rfl, hones⟩
  rcases Nat.lt_or_eq_of_le hretry with hlt | hover
  · rcases hsock with hsock | ⟨hsock, hnone⟩
    · rw [attempt_open hlt hsock]
      exact hbegin _ hlt
    · rw [attempt_closed hlt hsock]
      have hempty := hbegin (c.opened + 1) hlt
      rw [hnone, Nat.zero_mul, window_zero] at hempty
      exact hempty
  · rw [attempt_over hover]
    show Except.ok _ = Except.ok _ ↔ _
    rw [Except.ok.injEq]
    exact hend

theorem extract_eq {read : List UInt8} (h : read.length = readLen + 1) :
    extract readLen read = some (read.take readLen) := by
  rw [extract, if_neg (by omega), statusIsZero, if_neg Bool.false_ne_true, dropEnd, h,
    Nat.add_sub_cancel]

theorem extract_short {read : List UInt8} (h : read.length < readLen + 1) :
    extract readLen read = none := if_pos (by omega)

/-- An attempt that fails has not read a whole answer. -/
theorem Fed.fail (h : Fed mem address readLen c) :
    Inv mem address readLen (c.fail (answering mem address readLen) readLen) := by
  refine inv_attempt (c := { c with sock := none, retry := c.retry + 1, log := .failed :: c.log })
    h.retry (.inr ⟨rfl, rfl⟩) (fun i hi => absurd hi (Nat.not_lt_zero i)) ?_
  show extract readLen c.read = _ ↔ False
  rw [extract_short h.length]
  exact iff_of_false (fun heq => by cases heq) id

theorem Fed.send (h : Fed mem address readLen c) (hsent : c.sent = false)
    (message : List UInt8) :
    Fed mem address readLen (c.send (answering mem address readLen) message) := by
  have hsock := h.sock
  rw [h.unsent hsent, hsent] at hsock
  refine ⟨h.retry, h.atEnd, fun hf => (Bool.noConfusion hf), h.length, h.read, ?_, h.ones⟩
  show c.sock.map (· ++ (window mem address readLen ++ [1])) = _
  rw [hsock]
  show some (window _ (shortcuts c.log) (shortcuts c.log * readLen) ++ _) =
    some (window _ (shortcuts c.log + c.read.length)
      (shortcuts c.log * readLen + (readLen + 1) - c.read.length))
  rw [window_arriving_reply, h.unsent hsent]
  rfl

/-- The made-up answer. -/
theorem extract_ones :
    extract readLen (List.replicate readLen 0xff ++ [1]) = some (window mem address readLen) ↔
      ∀ i < readLen, mem (address + i) = 0xff := by
  rw [extract_eq (by simp), List.take_left' (by simp), Option.some.injEq]
  constructor
  · intro heq i hi
    have hget : (List.replicate readLen 0xff)[i]? = (window mem address readLen)[i]? :=
      congrArg (·[i]?) heq
    rw [getElem?_window hi, List.getElem?_replicate, if_pos hi] at hget
    exact (Option.some.inj hget).symm
  · intro hones
    refine (window_const 0xff fun x hx hlt => ?_).symm
    have hone := hones (x - address) (by omega)
    rwa [Nat.add_sub_of_le hx] at hone

/-- A received answer is right if and only if the attempt began with a reply. -/
theorem extract_received {k : Nat}
    (hones : ∀ i < k, arriving mem address readLen i = 0xff) :
    extract readLen (window (arriving mem address readLen) k (readLen + 1)) =
      some (window mem address readLen) ↔ k = 0 := by
  rw [extract_eq length_window, take_window (Nat.le_succ _), Option.some.injEq]
  rcases Nat.eq_zero_or_pos k with rfl | hpos
  · exact iff_of_true window_arriving rfl
  · exact iff_of_false (window_arriving_ne hpos hones) (by omega)

theorem Fed.recv (h : Fed mem address readLen c) (hsent : c.sent = true)
    (hlen : readLen + 1 - c.read.length < 2 ^ 31) (count : Nat) :
    Inv mem address readLen (c.recv (answering mem address readLen) readLen count) := by
  have hlength := h.length
  have hsock := h.sock
  rw [hsent, if_pos rfl] at hsock
  obtain ⟨j, hj, hcases⟩ := recv_cases (answering mem address readLen) hsock hlength hlen count
  have hle : j ≤ readLen + 1 - c.read.length := by omega
  have hread : c.read ++ (window (arriving mem address readLen) (shortcuts c.log + c.read.length)
      (shortcuts c.log * readLen + (readLen + 1) - c.read.length)).take j =
        window (arriving mem address readLen) (shortcuts c.log) (c.read.length + j) := by
    rw [take_window (by omega), window_add, ← h.read]
  rw [hread] at hcases
  rcases hcases with ⟨hshort, hrecv⟩ | ⟨-, hmore, hrecv⟩ | ⟨-, hfull, hrecv⟩
  · have hone := congrArg List.length hshort
    rw [length_window, List.length_singleton] at hone
    rw [hone] at hshort
    have hnext : arriving mem address readLen (shortcuts c.log) = 0xff := (List.cons.inj hshort).1
    rw [hrecv]
    refine inv_attempt h.retry (.inl ?_) ?_ extract_ones
    · show some ((window _ _ _).drop j) = some (window _ (shortcuts c.log + 1)
        ((shortcuts c.log + 1) * readLen))
      rw [drop_window (by omega), Nat.add_assoc, hone, Nat.succ_mul]
      congr 2
      omega
    · show ∀ i < shortcuts c.log + 1, _
      intro i hi
      rcases Nat.lt_succ_iff_lt_or_eq.mp hi with hlt | rfl
      · exact h.ones i hlt
      · exact hnext
  · rw [length_window] at hmore
    have htake : Call.take c (window (arriving mem address readLen)
        (shortcuts c.log + c.read.length)
        (shortcuts c.log * readLen + (readLen + 1) - c.read.length)) j =
      { c with
        read := window (arriving mem address readLen) (shortcuts c.log) (c.read.length + j)
        sock := some (window (arriving mem address readLen)
          (shortcuts c.log + (c.read.length + j))
          (shortcuts c.log * readLen + (readLen + 1) - (c.read.length + j)))
        atEnd := false } := by
      unfold Call.take
      rw [hread, drop_window (by omega), Nat.add_assoc, Nat.sub_sub]
      congr 1
      rw [List.isEmpty_eq_false_iff, ← List.length_pos_iff, length_window]
      omega
    rw [hrecv, htake]
    refine ⟨h.retry, rfl, fun hf => ?_, ?_, ?_, ?_, h.ones⟩
    · exact absurd (hsent.symm.trans hf) (by decide)
    · dsimp only
      rw [length_window]
      exact hmore
    · dsimp only
      rw [length_window]
    · dsimp only
      rw [length_window, hsent, if_pos rfl]
  · rw [length_window] at hfull
    rw [hrecv]
    rw [hfull]
    refine inv_attempt h.retry (.inl ?_) h.ones (extract_received h.ones)
    show some ((window _ _ _).drop j) = some (window _ (shortcuts c.log)
        (shortcuts c.log * readLen))
    rw [drop_window (by omega), Nat.add_assoc, hfull, window_arriving_add]
    congr 2
    omega

theorem Fed.step (h : Fed mem address readLen c) (message : List UInt8) (e : Event) :
    Inv mem address readLen (c.step (answering mem address readLen) message readLen e) := by
  rcases step_cases (answering mem address readLen) message readLen h.atEnd e with
    hstep | ⟨hsent, hstep⟩ | ⟨hsent, hlen, count, -, hstep⟩
  · rw [hstep]
    exact h.fail
  · rw [hstep]
    exact h.send hsent message
  · rw [hstep]
    exact h.recv hsent hlen count

end Steps

/-- A call that sends its requests ends, with the right bytes exactly if its attempts were
intact. -/
theorem run_ends (mem : Nat → UInt8) (hrep : Representable address readLen)
    (world : Nat → Event) :
    ∃ n value log, run (answering mem address readLen) world address readLen n =
        .ended (value, log) ∧
      (value = .ok (some (window mem address readLen)) ↔ Intact mem address readLen log) := by
  unfold run
  rw [packRequest_eq hrep]
  dsimp only
  have hstart : Inv mem address readLen
      (Call.attempt (answering mem address readLen) readLen {}) := by
    refine inv_attempt (by decide) (.inr ⟨rfl, rfl⟩) (fun i hi => absurd hi (Nat.not_lt_zero i)) ?_
    rw [extract_short (Nat.succ_pos _)]
    exact iff_of_false (fun heq => by cases heq) id
  obtain ⟨n, r, hr, hend⟩ := exists_ended_invariant Nat.lt_wfRel.wf (Call.left readLen)
    (Inv mem address readLen) hstart (fun n c _ hc => hc.step (message address readLen) (world n))
    fun n c c' _ hc hstep => by
      refine step_left hc.retry hc.atEnd hc.sock hc.length (fun hsent _ => ?_) hstep
      have hlength := hc.length
      rw [← List.length_pos_iff, length_window, hsent, if_pos rfl]
      omega
  exact ⟨n, r.1, r.2, hr, hend⟩

/-- **However the replies are split and whichever attempts fail, a call ends, and returns exactly
the requested bytes if and only if its attempts were intact**: the last one received its answer,
and none before it on its connection had taken a first byte `0xff` for the whole; or the last one
did, and all the bytes are `0xff`. -/
theorem right_bytes_iff_intact (mem : Nat → UInt8) (address readLen : Nat) (world : Nat → Event) :
    ∃ n value log, run (answering mem address readLen) world address readLen n =
        .ended (value, log) ∧
      (value = .ok (some (window mem address readLen)) ↔ Intact mem address readLen log) := by
  by_cases hrep : Representable address readLen
  · exact run_ends mem hrep world
  · refine ⟨0, .error .structError, [], ?_, iff_of_false (fun heq => by cases heq) id⟩
    unfold run
    rw [packRequest_error hrep]

/-- A guest of which every fourth byte is `0xff`. -/
def everyFourth (x : Nat) : UInt8 := if x % 4 = 0 then 0xff else UInt8.ofNat (x % 4)

/-- The first two attempts go well and the third one fails. -/
def failsThird (n : Nat) : Event := if n = 4 then .raised else .done 5

/-- Four bytes, received one at a time, come out shifted; and four bytes that are received twice
are given up when the third attempt fails. -/
theorem split_or_failed_read_wrong :
    ¬ (∀ (mem : Nat → UInt8) (address readLen : Nat) (world : Nat → Event) (n : Nat)
        (value : Except PyError (Option (List UInt8))) (log : List Ending), 1 ≤ readLen →
      run (answering mem address readLen) world address readLen n = .ended (value, log) →
      (∀ ending ∈ log, ending ≠ .failed) →
      value = .ok (some (window mem address readLen))) ∧
    ¬ (∀ (mem : Nat → UInt8) (address readLen : Nat) (world : Nat → Event) (n : Nat)
        (value : Except PyError (Option (List UInt8))) (log : List Ending), 1 ≤ readLen →
      run (answering mem address readLen) world address readLen n = .ended (value, log) →
      (∃ ending ∈ log, ending ≠ .failed) →
      value = .ok (some (window mem address readLen))) := by
  have hsplit : run (answering everyFourth 0x1000 4) (fun _ => .done 1) 0x1000 4 14 =
      .ended (.ok (some [1, 2, 3, 1]), [.received, .received, .shortcut]) := by
    rfl
  have hfails : run (answering everyFourth 0x1001 4) failsThird 0x1001 4 5 =
      .ended (.ok none, [.failed, .received, .received]) := by
    rfl
  constructor
  · intro h
    have hvalue := h _ _ _ _ _ _ _ (by decide) hsplit (by decide)
    exact absurd hvalue (by decide)
  · intro h
    have hvalue := h _ _ _ _ _ _ _ (by decide) hfails (by decide)
    exact absurd hvalue (by decide)

end LoPhi.Memory.Packets
