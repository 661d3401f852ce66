import Mathlib.Logic.Function.Basic
import LoPhi.Sata.Transparency

/-! # Queued traffic on a SATA link

What the reconstructor is for, said without it: an NCQ command is a register
frame and one or more bursts of data, the device serves the queued commands in
any order, one burst at a time, and the host may queue a command or either side
send bookkeeping frames at any moment. Each frame comes with the outcome it
should have: nothing, or the whole access when its last byte has arrived. -/

namespace LoPhi.Sata.Queuing
open LoPhi.Sata.Frame LoPhi.Sata.Reconstructor LoPhi.Sata.Step LoPhi.Sata.Transparency

variable {β : Type} {n : Nat}

/-- How many payload bytes the data frames carry. -/
def received (frames : List (List β)) : Nat := (frames.map fun d => (payload d).length).sum

@[simp] theorem received_append (xs ys : List (List β)) :
    received (xs ++ ys) = received xs + received ys := by
  simp [received]

@[simp] theorem received_singleton (d : List β) : received [d] = (payload d).length := by
  simp [received]

/-! ## Commands -/

/-- A DMA Setup and its data frames: the transfer count is first reached with the
last frame. -/
structure Burst (β : Type) where
  setup : DmaSetup
  frames : List (List β)
  positive : 0 < setup.transferCount
  short : ∀ sent left, frames = sent ++ left → left ≠ [] → received sent < setup.transferCount
  reached : setup.transferCount ≤ received frames

/-- A burst of one frame. -/
def Burst.single (setup : DmaSetup) (data : List β) (positive : 0 < setup.transferCount)
    (exact : (payload data).length = setup.transferCount) : Burst β where
  setup := setup
  frames := [data]
  positive := positive
  short := by
    intro sent left h hleft
    cases sent with
    | nil => exact positive
    | cons x xs =>
      obtain ⟨_, rfl⟩ := List.append_eq_nil_iff.mp (List.cons.inj h).2.symm
      exact absurd rfl hleft
  reached := by simp [exact]

/-- The frames of several bursts. -/
def framesOf (bursts : List (Burst β)) : List (List β) := bursts.flatMap Burst.frames

@[simp] theorem framesOf_append (xs ys : List (Burst β)) :
    framesOf (xs ++ ys) = framesOf xs ++ framesOf ys := by
  simp [framesOf]

@[simp] theorem framesOf_singleton (b : Burst β) : framesOf [b] = b.frames := by
  simp [framesOf]

/-- An NCQ read or write of `features` sectors of `n` bytes with the bursts that
serve it. Its bytes are not complete before the last burst. -/
structure Transaction (β : Type) (n : Nat) where
  register : RegisterHtoD
  bursts : List (Burst β)
  ncq : IsNcq register
  tag : register.tag < 32
  lba : register.lba < 2 ^ 48
  features : 1 ≤ register.features ∧ register.features < 2 ^ 16
  setups : ∀ b ∈ bursts, b.setup.dmaBufIdentifierLow = register.tag ∧
    (b.setup.directionBit = hostToDevice ↔ register.command = writeFPDMAQueued)
  total : (bursts.map (·.setup.transferCount)).sum = register.features * n
  early : ∀ pre post, bursts = pre ++ post → post ≠ [] →
    received (framesOf pre) < register.features * n

/-- Bursts that carry exactly what their setups announce do not complete the
command before the last one. -/
theorem early_of_exact {bursts : List (Burst β)} {size : Nat}
    (hexact : ∀ b ∈ bursts, received b.frames = b.setup.transferCount)
    (htotal : (bursts.map (·.setup.transferCount)).sum = size) :
    ∀ pre post, bursts = pre ++ post → post ≠ [] → received (framesOf pre) < size := by
  intro pre post hsplit hpost
  subst hsplit
  have hpre : received (framesOf pre) = (pre.map (·.setup.transferCount)).sum := by
    clear htotal hpost
    induction pre with
    | nil => rfl
    | cons b bs ih =>
      have hb := hexact b (by simp)
      have hbs := ih (fun b' hb' => hexact b' (by simp at hb' ⊢; tauto))
      rw [show b :: bs = [b] ++ bs from rfl, framesOf_append, received_append, framesOf_singleton,
        hb, hbs]
      simp
  cases post with
  | nil => exact absurd rfl hpost
  | cons b bs =>
    have hb := b.positive
    simp only [List.map_append, List.sum_append, List.map_cons, List.sum_cons] at htotal
    omega

/-- The direction the data of the command travels in. -/
def dataDirection (r : RegisterHtoD) : Nat :=
  if r.command = writeFPDMAQueued then hostToDevice else deviceToHost

/-- The access the command is reported as. -/
def Transaction.packet (t : Transaction β n) : DiskSensorPacket β :=
  extend (ncqPacket n t.register) (framesOf t.bursts)

/-- A queued command, its bursts split into those transferred and those to come. -/
structure Progress (β : Type) (n : Nat) where
  txn : Transaction β n
  done : List (Burst β)
  todo : List (Burst β)
  split : done ++ todo = txn.bursts

def Progress.start (t : Transaction β n) : Progress β n := ⟨t, [], t.bursts, rfl⟩

def Progress.advance (p : Progress β n) {b : Burst β} {bs : List (Burst β)}
    (h : p.todo = b :: bs) : Progress β n :=
  ⟨p.txn, p.done ++ [b], bs, by rw [← p.split, h, List.append_assoc]; rfl⟩

/-! ## The link -/

/-- A burst in progress: whose it is, and its frames sent and to come. -/
structure Transfer (β : Type) where
  tag : Nat
  sent : List (List β)
  left : List (List β)

structure Link (β : Type) (n : Nat) where
  outstanding : Nat → Option (Progress β n)
  transfer : Option (Transfer β)

def Link.idle : Link β n := ⟨fun _ => none, none⟩

/-- One frame on the link, and the outcome it should have. -/
inductive LinkStep : Link β n → Content β → Outcome β → Link β n → Prop where
  /-- The host queues a command with a tag that is not outstanding. -/
  | command {l : Link β n} {c : Content β} (t : Transaction β n)
      (hc : c.fis = .registerHtoD t.register) (hd : c.direction = hostToDevice)
      (free : l.outstanding t.register.tag = none) :
      LinkStep l c (.ok none)
        { l with outstanding := Function.update l.outstanding t.register.tag (some (.start t)) }
  /-- The device begins the next burst of an outstanding command. -/
  | setup {l : Link β n} {c : Content β} {p : Progress β n} {b : Burst β} {bs : List (Burst β)}
      (idle : l.transfer = none) (hp : l.outstanding p.txn.register.tag = some p)
      (htodo : p.todo = b :: bs) (hc : c.fis = .dmaSetup b.setup)
      (hd : c.direction = deviceToHost) :
      LinkStep l c (.ok none) { l with transfer := some ⟨p.txn.register.tag, [], b.frames⟩ }
  /-- A data frame of the burst that is not its last. -/
  | data {l : Link β n} {c : Content β} {p : Progress β n} {sent left : List (List β)}
      (busy : l.transfer = some ⟨p.txn.register.tag, sent, c.sataData :: left⟩)
      (more : left ≠ []) (hp : l.outstanding p.txn.register.tag = some p) (hc : c.fis = .data)
      (hd : c.direction = dataDirection p.txn.register) :
      LinkStep l c (.ok none)
        { l with transfer := some ⟨p.txn.register.tag, sent ++ [c.sataData], left⟩ }
  /-- The last data frame of a burst that is not the command's last. -/
  | burst {l : Link β n} {c : Content β} {p : Progress β n} {sent : List (List β)} {b : Burst β}
      {bs : List (Burst β)}
      (busy : l.transfer = some ⟨p.txn.register.tag, sent, [c.sataData]⟩)
      (hp : l.outstanding p.txn.register.tag = some p) (htodo : p.todo = b :: bs)
      (more : bs ≠ []) (hc : c.fis = .data) (hd : c.direction = dataDirection p.txn.register) :
      LinkStep l c (.ok none)
        { outstanding :=
            Function.update l.outstanding p.txn.register.tag (some (p.advance htodo)),
          transfer := none }
  /-- The last data frame of the command: the whole access is reported. -/
  | complete {l : Link β n} {c : Content β} {p : Progress β n} {sent : List (List β)}
      {b : Burst β}
      (busy : l.transfer = some ⟨p.txn.register.tag, sent, [c.sataData]⟩)
      (hp : l.outstanding p.txn.register.tag = some p) (htodo : p.todo = [b])
      (hc : c.fis = .data) (hd : c.direction = dataDirection p.txn.register) :
      LinkStep l c (.ok (some [p.txn.packet]))
        { outstanding := Function.update l.outstanding p.txn.register.tag none,
          transfer := none }
  /-- A bookkeeping frame, at any moment. -/
  | other {l : Link β n} {c : Content β} (hc : Bookkeeping c) : LinkStep l c (.ok none) l

/-- A sequence of frames on the link, with the outcome each should have. -/
inductive Traffic : Link β n → List (Content β) → List (Outcome β) → Link β n → Prop where
  | nil (l : Link β n) : Traffic l [] [] l
  | cons {l l' l'' : Link β n} {c : Content β} {o : Outcome β} {cs : List (Content β)}
      {os : List (Outcome β)} (head : LinkStep l c o l') (tail : Traffic l' cs os l'') :
      Traffic l (c :: cs) (o :: os) l''

end LoPhi.Sata.Queuing
