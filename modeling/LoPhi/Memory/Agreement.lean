import LoPhi.Memory.Virtual

/-! # What the client makes of the hypervisor's answers

A success reply is the bytes and a one; a failure reply is the first byte of the
buffer, whatever it is. The client never takes a reply for a failure: it waits for
more bytes, or, when that byte is `0xff`, makes up the rest. So it agrees with the
hypervisor only on ranges that are mapped in full and do not begin with `0xff`, and on
requests that can be sent but not received. -/

namespace LoPhi.Memory.Agreement
open LoPhi.Lib.Python LoPhi.Lib.Struct LoPhi.Lib.Window LoPhi.Memory.Virtual

variable {h : Hypervisor} {sched : Nat → Nat} {address length : Nat}

/-- The fields of the request fit. -/
def Representable (address length : Nat) : Prop := address < 2 ^ 64 ∧ length < 2 ^ 64

/-- The hypervisor maps all of the range for the `i`-th request. -/
def Full (h : Hypervisor) (i address length : Nat) : Prop :=
  h.map i address length = some (Fin.last length)

/-- All three requests of a call are answered from the whole range. -/
def MappedInFull (h : Hypervisor) (address length : Nat) : Prop :=
  Representable address length ∧ ∀ i < 3, Full h i address length

/-- The call sends its request and gets to read the answer. -/
def Receivable (address length : Nat) : Prop := address < 2 ^ 64 ∧ length + 1 < 2 ^ 31

/-! ## The message and the reply -/

/-- The bytes of a read request. -/
def message (address length : Nat) : List UInt8 :=
  leBytes 8 1 ++ (leBytes 8 address ++ (leBytes 8 length ++ []))

theorem packRequest_eq (hrep : Representable address length) :
    packRequest ⟨1, address, length⟩ = .ok (message address length) := by
  refine packNative_ok fun item hitem => ?_
  simp only [List.mem_cons, List.not_mem_nil, or_false] at hitem
  obtain rfl | rfl | rfl := hitem
  · decide
  · exact hrep.1
  · exact hrep.2

theorem packRequest_error (hrep : ¬ Representable address length) :
    packRequest ⟨1, address, length⟩ = .error .structError := by
  refine packNative_error ?_
  by_cases haddr : address < 2 ^ 64
  · exact ⟨(8, length), by simp, fun hlen => hrep ⟨haddr, hlen⟩⟩
  · exact ⟨(8, address), by simp, haddr⟩

theorem decodeRequest_eq (hrep : Representable address length) :
    decodeRequest (message address length) = ⟨1, address, length⟩ := by
  have hdrop : (leBytes 8 1 ++ (leBytes 8 address ++ (leBytes 8 length ++ []))).drop 16 =
      leBytes 8 length ++ [] := by
    rw [← List.append_assoc]
    exact List.drop_left' (by simp)
  unfold decodeRequest message
  rw [List.drop_left' (leBytes_length 8 1), List.take_left' (leBytes_length 8 address), hdrop,
    List.take_left' (leBytes_length 8 length), leNat_leBytes hrep.1, leNat_leBytes hrep.2]
  rfl

theorem toInt_eq {n : Nat} (hn : n < 2 ^ 31) : toInt n = n := by
  unfold toInt
  rw [Int.bmod_eq_of_le] <;> omega

/-- The reply for a range that is mapped in full. -/
def success (h : Hypervisor) (address length : Nat) : List UInt8 :=
  window h.mem address length ++ [1]

theorem success_length : (success h address length).length = length + 1 := by
  simp [success]

theorem readReply_full {i : Nat} (hfull : Full h i address length) (hlen : length + 1 < 2 ^ 31) :
    readReply h i address length = success h address length := by
  have hcast : ((length : Int) + 1) = ((length + 1 : Nat) : Int) := rfl
  unfold readReply connectionReadMemory
  rw [hfull]
  dsimp only [Fin.val_last]
  rw [toInt_eq (by omega), if_neg (by omega), hcast, toInt_eq hlen, Int.toNat_natCast, window_add,
    Nat.zero_add]
  unfold success
  congr 1
  · rw [window_congr (g := fun k => h.mem (address + k)), window_shift, Nat.add_zero]
    intro x _ hx
    rw [if_neg (by omega), if_pos (by omega)]
  · rw [window_succ, if_pos rfl]
    rfl

theorem connectionHandler_full {i : Nat} (hrep : Representable address length)
    (hfull : Full h i address length) (hlen : length + 1 < 2 ^ 31) :
    connectionHandler h i (message address length) = success h address length := by
  unfold connectionHandler
  rw [decodeRequest_eq hrep]
  dsimp only
  rw [if_pos rfl]
  exact readReply_full hfull hlen

/-! ## The loop over `recv` -/

theorem recvCount_pos (sched : Nat → Nat) (t limit waiting : Nat) :
    1 ≤ recvCount sched t limit waiting := by
  unfold recvCount
  omega

theorem recvCount_le (sched : Nat → Nat) (t waiting : Nat) {limit : Nat} (hlimit : 1 ≤ limit) :
    recvCount sched t limit waiting ≤ limit := by
  unfold recvCount
  omega

/-- The loop ends only with `read_len + 1` bytes. -/
theorem recvLoop_length {fuel : Nat} {link link' : Link} {read read' : List UInt8}
    (hfuel : length + 1 ≤ fuel + read.length) (hread : read.length ≤ length + 1)
    (heq : recvLoop sched length fuel link read = some (read', link')) :
    read'.length = length + 1 := by
  induction fuel generalizing link read with
  | zero =>
    cases heq
    omega
  | succ fuel ih =>
    unfold recvLoop at heq
    split at heq
    swap
    · cases heq
      omega
    rename_i hmore
    split at heq
    · cases heq
    rename_i hpending
    have hwaiting : 0 < link.pending.length := List.length_pos_iff.mpr hpending
    have hpos := recvCount_pos sched link.recvs (length + 1 - read.length)
      link.pending.length
    have hlimit : 1 ≤ length + 1 - read.length := by omega
    have hle := recvCount_le sched link.recvs link.pending.length hlimit
    dsimp only at heq
    generalize recvCount sched link.recvs (length + 1 - read.length) link.pending.length = k
      at heq hpos hle
    split at heq
    · refine ih ?_ ?_ heq <;> simp
    · refine ih ?_ ?_ heq <;> simp only [List.length_append, List.length_take] <;> omega

/-- A reply that does not begin with `0xff` is received whole, however it is split. -/
theorem recvLoop_reply {reply : List UInt8} (hreply : reply.length = length + 1)
    (hfirst : reply.head? ≠ some 0xff) {fuel : Nat} (link : Link) (read : List UInt8)
    (hfuel : length + 1 ≤ fuel + read.length) (hsplit : read ++ link.pending = reply) :
    ∃ t, recvLoop sched length fuel link read =
      some (reply, { link with pending := [], recvs := t }) := by
  have htotal : read.length + link.pending.length = length + 1 := by
    rw [← hreply, ← hsplit, List.length_append]
  induction fuel generalizing link read with
  | zero =>
    have hnil : link.pending = [] := List.eq_nil_of_length_eq_zero (by omega)
    rw [hnil, List.append_nil] at hsplit
    refine ⟨link.recvs, ?_⟩
    rw [← hsplit, ← hnil]
    rfl
  | succ fuel ih =>
    unfold recvLoop
    by_cases hmore : read.length < length + 1
    swap
    · have hnil : link.pending = [] := List.eq_nil_of_length_eq_zero (by omega)
      rw [hnil, List.append_nil] at hsplit
      refine ⟨link.recvs, ?_⟩
      rw [if_neg hmore, ← hsplit, ← hnil]
    have hne : link.pending ≠ [] := by
      intro hnil
      rw [hnil, List.length_nil] at htotal
      omega
    rw [if_pos hmore, if_neg hne]
    dsimp only
    have hpos := recvCount_pos sched link.recvs (length + 1 - read.length)
      link.pending.length
    generalize recvCount sched link.recvs (length + 1 - read.length) link.pending.length = k
      at hpos
    have hsplit' : read ++ link.pending.take k ++ link.pending.drop k = reply := by
      rw [List.append_assoc, List.take_append_drop, hsplit]
    have hshort : read ++ link.pending.take k ≠ [0xff] := by
      intro heq
      rw [← hsplit', heq] at hfirst
      exact hfirst rfl
    rw [if_neg hshort]
    have hwaiting := List.length_pos_iff.mpr hne
    refine ih _ _ ?_ hsplit' ?_
    · simp only [List.length_append, List.length_take]
      omega
    · rw [← List.length_append, hsplit', hreply]

/-! ## The attempts -/

theorem Receivable.representable (hrec : Receivable address length) :
    Representable address length :=
  ⟨hrec.1, by have := hrec.2; omega⟩

/-- An attempt that gets to read. -/
theorem attempt_eq (hrec : Receivable address length) (link : Link) :
    attempt h sched (message address length) length link =
      recvLoop sched length (length + 1)
        { link with
          pending := link.pending ++ connectionHandler h link.requests (message address length)
          requests := link.requests + 1 } [] := by
  have hlen := hrec.2
  unfold attempt
  rw [if_neg (by omega)]

theorem attempt_length (hrec : Receivable address length) {link link' : Link} {read : List UInt8}
    (heq : attempt h sched (message address length) length link = some (read, link')) :
    read.length = length + 1 := by
  rw [attempt_eq hrec] at heq
  exact recvLoop_length (by simp) (by simp) heq

theorem attempts_length (hrec : Receivable address length) {n : Nat} {read read' : List UInt8}
    {link link' : Link} (hread : n = 0 → read.length = length + 1)
    (heq : attempts h sched (message address length) length n read link = some (read', link')) :
    read'.length = length + 1 := by
  induction n generalizing read link with
  | zero =>
    cases heq
    exact hread rfl
  | succ n ih =>
    unfold attempts at heq
    split at heq
    · cases heq
    · rename_i read₁ link₁ hattempt
      exact ih (fun _ => attempt_length hrec hattempt) heq

/-- **The client never reports a failure** once it reads: it blocks or returns data. -/
theorem readFromSensor_ne_none (hrec : Receivable address length) :
    readFromSensor h sched address length ≠ .returned none := by
  unfold readFromSensor
  rw [packRequest_eq hrec.representable]
  dsimp only
  split
  · exact fun heq => by cases heq
  · rename_i read link heq
    have hread := attempts_length hrec (by simp) heq
    rw [extract, if_neg (by simp [hread])]
    exact fun heq => by cases heq

/-- A request that does not fit. -/
theorem readFromSensor_unrepresentable (hrep : ¬ Representable address length) :
    readFromSensor h sched address length = .raised .structError := by
  unfold readFromSensor
  rw [packRequest_error hrep]

/-- A request that is given up before the answer is read. -/
theorem readFromSensor_unreceivable (hrep : Representable address length)
    (hrec : ¬ Receivable address length) :
    readFromSensor h sched address length = .returned none := by
  have hlong : 2 ^ 31 ≤ length + 1 := by
    by_contra hlen
    exact hrec ⟨hrep.1, by omega⟩
  have hattempt : ∀ link, ∃ link',
      attempt h sched (message address length) length link = some ([], link') := by
    intro link
    unfold attempt
    rw [if_pos hlong]
    exact ⟨_, rfl⟩
  obtain ⟨link₁, h₁⟩ := hattempt {}
  obtain ⟨link₂, h₂⟩ := hattempt link₁
  obtain ⟨link₃, h₃⟩ := hattempt link₂
  unfold readFromSensor
  rw [packRequest_eq hrep]
  simp only [attempts, h₁, h₂, h₃]
  rw [extract, if_pos (by simp)]

/-- The result of a call whose attempts end. -/
theorem readFromSensor_eq (hrep : Representable address length)
    {read₁ read₂ data : List UInt8} {status : UInt8} {link₁ link₂ link₃ : Link}
    (h₁ : attempt h sched (message address length) length {} = some (read₁, link₁))
    (h₂ : attempt h sched (message address length) length link₁ = some (read₂, link₂))
    (h₃ : attempt h sched (message address length) length link₂ = some (data ++ [status], link₃))
    (hdata : data.length = length) :
    readFromSensor h sched address length = .returned (some data) := by
  unfold readFromSensor
  rw [packRequest_eq hrep]
  simp only [attempts, h₁, h₂, h₃]
  rw [extract, if_neg (by simp [hdata]), statusIsZero, if_neg Bool.false_ne_true, dropEnd,
    List.length_append, List.length_singleton, Nat.add_sub_cancel, List.take_left]

/-- An attempt on a connection without leftovers, answered from the whole range. -/
theorem attempt_full (hrec : Receivable address length) {i : Nat}
    (hfull : Full h i address length) (hfirst : h.mem address ≠ 0xff) (hlen : 1 ≤ length)
    (t : Nat) :
    ∃ t', attempt h sched (message address length) length ⟨[], i, t⟩ =
      some (success h address length, ⟨[], i + 1, t'⟩) := by
  rw [attempt_eq hrec, connectionHandler_full hrec.representable hfull hrec.2, List.nil_append]
  refine recvLoop_reply success_length ?_ _ [] (by simp) rfl
  obtain ⟨n, rfl⟩ : ∃ n, length = n + 1 := ⟨length - 1, by omega⟩
  rw [success, window_succ]
  simpa using hfirst

theorem readFromSensor_full (sched : Nat → Nat) (hrec : Receivable address length)
    (hfull : ∀ i < 3, Full h i address length) (hfirst : h.mem address ≠ 0xff)
    (hlen : 1 ≤ length) :
    readFromSensor h sched address length = .returned (some (window h.mem address length)) := by
  obtain ⟨t₁, h₁⟩ := attempt_full hrec (hfull 0 (by omega)) hfirst hlen 0
  obtain ⟨t₂, h₂⟩ := attempt_full hrec (hfull 1 (by omega)) hfirst hlen t₁
  obtain ⟨t₃, h₃⟩ := attempt_full hrec (hfull 2 (by omega)) hfirst hlen t₂
  exact readFromSensor_eq hrec.representable h₁ h₂ h₃ length_window

/-! ## A reply that begins with `0xff` -/

/-- The first `recv` returns one byte, and every other as much as it may. -/
def splitFirst (length t : Nat) : Nat := if t = 0 then 1 else length + 1

/-- What follows the first byte of a success reply. -/
def leftover (h : Hypervisor) (address length : Nat) : List UInt8 :=
  window h.mem (address + 1) (length - 1) ++ [1]

theorem leftover_length (h : Hypervisor) (address : Nat) (hlen : 1 ≤ length) :
    (leftover h address length).length = length := by
  simp only [leftover, List.length_append, length_window, List.length_singleton]
  omega

section Leftover
variable (hlen : 1 ≤ length) (hfirst : h.mem address = 0xff)
include hlen hfirst

theorem success_eq_leftover : success h address length = 0xff :: leftover h address length := by
  obtain ⟨n, rfl⟩ : ∃ n, length = n + 1 := ⟨length - 1, by omega⟩
  rw [success, window_succ, hfirst]
  rfl

/-- The first attempt takes the first byte for the whole answer. -/
theorem attempt_split (hrec : Receivable address length) (hfull : Full h 0 address length) :
    ∃ read, attempt h (splitFirst length) (message address length) length {} =
      some (read, ⟨leftover h address length, 1, 1⟩) := by
  have hrest := leftover_length h address hlen
  rw [attempt_eq hrec, connectionHandler_full hrec.representable hfull hrec.2,
    success_eq_leftover hlen hfirst, List.nil_append]
  unfold recvLoop
  rw [if_pos (by simp), if_neg (by simp)]
  have hcount : recvCount (splitFirst length) 0 (length + 1 - ([] : List UInt8).length)
      (0xff :: leftover h address length).length = 1 := by
    simp [recvCount, splitFirst]
  dsimp only
  rw [hcount, List.nil_append, List.take_succ_cons, List.take_zero, if_pos rfl]
  obtain ⟨n, rfl⟩ : ∃ n, length = n + 1 := ⟨length - 1, by omega⟩
  unfold recvLoop
  rw [if_neg (by simp)]
  exact ⟨_, rfl⟩

/-- Every later attempt takes what was left over for the beginning of its answer. -/
theorem attempt_shifted (hrec : Receivable address length) {i t : Nat}
    (hfull : Full h i address length) (ht : t ≠ 0) :
    attempt h (splitFirst length) (message address length) length
        ⟨leftover h address length, i, t⟩ =
      some (leftover h address length ++ [0xff], ⟨leftover h address length, i + 1, t + 1⟩) := by
  have hrest := leftover_length h address hlen
  rw [attempt_eq hrec, connectionHandler_full hrec.representable hfull hrec.2,
    success_eq_leftover hlen hfirst]
  generalize leftover h address length = rest at hrest
  obtain ⟨n, rfl⟩ : ∃ n, length = n + 1 := ⟨length - 1, by omega⟩
  unfold recvLoop
  rw [if_pos (by simp), if_neg (by simp)]
  have hcount : recvCount (splitFirst (n + 1)) t (n + 1 + 1 - ([] : List UInt8).length)
      (rest ++ 0xff :: rest).length = n + 1 + 1 := by
    simp only [recvCount, splitFirst, if_neg ht, List.length_append, List.length_cons, hrest,
      List.length_nil]
    omega
  have hsplit : rest ++ 0xff :: rest = (rest ++ [0xff]) ++ rest := by simp
  have hread : (rest ++ [0xff] : List UInt8).length = n + 1 + 1 := by simp [hrest]
  dsimp only
  rw [hcount, hsplit, List.take_left' hread, List.drop_left' hread, List.nil_append,
    if_neg (by
      intro heq
      rw [heq] at hread
      simp at hread)]
  unfold recvLoop
  rw [if_neg (by simp [hread])]

end Leftover

/-- A list that shifting does not change is constant. -/
theorem eq_of_shift {a c : UInt8} {tail : List UInt8} (heq : a :: tail = tail ++ [c]) : a = c := by
  induction tail generalizing a with
  | nil => simpa using heq
  | cons b tail ih =>
    simp only [List.cons_append, List.cons.injEq] at heq
    rw [heq.1]
    exact ih heq.2

theorem readFromSensor_split (hrec : Receivable address length)
    (hfull : ∀ i < 3, Full h i address length) (hfirst : h.mem address = 0xff)
    (hlen : 1 ≤ length) :
    readFromSensor h (splitFirst length) address length ≠
      .returned (some (window h.mem address length)) := by
  obtain ⟨read, h₁⟩ := attempt_split hlen hfirst hrec (hfull 0 (by omega))
  have h₂ := attempt_shifted hlen hfirst hrec (t := 1) (hfull 1 (by omega)) (by omega)
  have h₃ := attempt_shifted hlen hfirst hrec (t := 2) (hfull 2 (by omega)) (by omega)
  rw [readFromSensor_eq hrec.representable h₁ h₂ h₃ (leftover_length h address hlen)]
  intro heq
  injection heq with heq
  injection heq with heq
  obtain ⟨n, rfl⟩ : ∃ n, length = n + 1 := ⟨length - 1, by omega⟩
  rw [window_succ, leftover, Nat.add_sub_cancel] at heq
  have := eq_of_shift heq.symm
  rw [hfirst] at this
  cases this

/-! ## Agreement -/

/-- However the stream is split, the client returns the guest's bytes when the range was
mapped in full and `None` when it was not. -/
def Agrees (h : Hypervisor) (address length : Nat) : Prop :=
  (MappedInFull h address length → ∀ sched,
    readFromSensor h sched address length = .returned (some (window h.mem address length))) ∧
  (¬ MappedInFull h address length → ∀ sched,
    readFromSensor h sched address length = .returned none)

/-- **The client and the hypervisor agree exactly on** the requests that can be sent but not
received and are not mapped in full, and the ranges that are mapped in full and do not begin
with `0xff`. -/
theorem agrees_iff (h : Hypervisor) (address : Nat) (hlen : 1 ≤ length) :
    Agrees h address length ↔
      (Representable address length ∧ ¬ Receivable address length ∧
        ¬ MappedInFull h address length) ∨
      (Receivable address length ∧ MappedInFull h address length ∧ h.mem address ≠ 0xff) := by
  by_cases hrec : Receivable address length
  · constructor
    · intro hagree
      by_cases hfull : MappedInFull h address length
      · refine .inr ⟨hrec, hfull, fun hfirst => ?_⟩
        exact readFromSensor_split hrec hfull.2 hfirst hlen (hagree.1 hfull (splitFirst length))
      · exact absurd (hagree.2 hfull (splitFirst length)) (readFromSensor_ne_none hrec)
    · rintro (⟨-, hnot, -⟩ | ⟨-, hfull, hfirst⟩)
      · exact absurd hrec hnot
      · exact ⟨fun _ sched => readFromSensor_full sched hrec hfull.2 hfirst hlen,
          fun hnot => absurd hfull hnot⟩
  · constructor
    · intro hagree
      have hfull : ¬ MappedInFull h address length := by
        intro hfull
        have hdata := hagree.1 hfull (splitFirst length)
        rw [readFromSensor_unreceivable hfull.1 hrec] at hdata
        cases hdata
      refine .inl ⟨?_, hrec, hfull⟩
      by_contra hrep
      have hnone := hagree.2 hfull (splitFirst length)
      rw [readFromSensor_unrepresentable hrep] at hnone
      cases hnone
    · rintro (⟨hrep, -, hnot⟩ | ⟨hyes, -⟩)
      · exact ⟨fun hfull => absurd hfull hnot, fun _ _ => readFromSensor_unreceivable hrep hrec⟩
      · exact absurd hyes hrec

/-- A guest whose memory is mapped whatever is asked for. -/
def mapped : Hypervisor where
  mem x := UInt8.ofNat x
  map _ _ length := some (Fin.last length)
  heap _ _ := 0

theorem agrees_mapped : Agrees mapped 0x1000 4 :=
  (agrees_iff mapped 0x1000 (by decide)).mpr
    (.inr ⟨⟨by decide, by decide⟩, ⟨⟨by decide, by decide⟩, fun _ _ => rfl⟩, by decide⟩)

/-- A guest of which nothing can be mapped, with `0xff` in the handler's buffer. -/
def unmapped : Hypervisor where
  mem x := UInt8.ofNat x
  map _ _ _ := none
  heap _ _ := 0xff

/-- The client makes four bytes of the failure reply. -/
theorem unmapped_returns_data :
    readFromSensor unmapped (fun _ => 1) 0x1000 4 =
        .returned (some [0xff, 0xff, 0xff, 0xff]) ∧
      ¬ Agrees unmapped 0x1000 4 := by
  have hdata : readFromSensor unmapped (fun _ => 1) 0x1000 4 =
      .returned (some [0xff, 0xff, 0xff, 0xff]) := by decide +kernel
  refine ⟨hdata, fun hagree => ?_⟩
  have hnone := hagree.2 (fun hfull => by cases hfull.2 0 (by decide)) fun _ => 1
  rw [hdata] at hnone
  cases hnone

end LoPhi.Memory.Agreement
