import LoPhi.Pxe.Dhcpd

/-! # One boot for each grant

`PXE_ADD_ACL` lets a machine boot from the network once. The grant is checked
when an address is offered, the boot file chosen then is remembered, and the
grant is removed when the request is acknowledged. The acknowledgement names the
remembered file without looking at the grant again. So a machine is told the
boot file a second time if it repeats its request, or if its grant was deleted
after the offer. -/

namespace LoPhi.Pxe.Grants
open LoPhi.Lib LoPhi.Lib.Machine LoPhi.Pxe.Dhcpd

variable {s s₀ : Services} {m : Message} {ms : List Message} {mac : Mac} {k : Nat}

/-- The machine named by an access-control request with the given command. -/
def named (command data : List Char) : Option Mac :=
  match data.splitOn ' ' with
  | cmd :: mac :: _ => if cmd = command then some (lower mac) else none
  | _ => none

/-- `PXE_ADD_ACL` for the machine. -/
def GrantsTo (m : Message) (mac : Mac) : Prop :=
  ∃ data, m = .acl data ∧ named "addacl".toList data = some mac

/-- `PXE_DEL_ACL` for the machine. -/
def RevokesFrom (m : Message) (mac : Mac) : Prop :=
  ∃ data, m = .acl data ∧ named "delacl".toList data = some mac

/-- The message is a request of the machine as a PXE client. -/
def PxeRequest (m : Message) (mac : Mac) : Prop :=
  ∃ packet vendor, m = .request packet ∧ macAddr packet = mac ∧
    packet.vendorClass = some vendor ∧ isPxeClient vendor = true

/-- The message is answered with an acknowledgement that names the configured boot file. -/
def Boots (s : Services) (m : Message) (mac : Mac) : Prop :=
  PxeRequest m mac ∧ ∃ reply, (step s m).2 = .sent reply ∧ reply.kind = .ack ∧
    (.file, fileField s.config.filename) ∈ reply.fields

/-- The machine is in the access-control list. -/
def Allowed (s : Services) (mac : Mac) : Prop := (s.acl.get? mac).isSome

instance (s : Services) (mac : Mac) : Decidable (Allowed s mac) :=
  inferInstanceAs (Decidable ((s.acl.get? mac).isSome = true))

/-! ## The access-control list -/

theorem acl_discover (packet : DhcpPacket) : (handleDhcpDiscover s packet).1.acl = s.acl := by
  unfold handleDhcpDiscover
  dsimp only
  repeat' split
  all_goals rfl

/-- A request keeps the list, or removes the machine that asks as a PXE client. -/
theorem acl_request (packet : DhcpPacket) :
    ((handleDhcpRequest s packet).1.acl = s.acl ∧
      ∀ vendor reply, packet.vendorClass = some vendor → isPxeClient vendor = true →
        (handleDhcpRequest s packet).2 ≠ .sent reply) ∨
    (handleDhcpRequest s packet).1.acl = s.acl.erase (macAddr packet) ∨
    ((handleDhcpRequest s packet).1.acl = s.acl ∧
      ∀ vendor, packet.vendorClass = some vendor → isPxeClient vendor = false) := by
  unfold handleDhcpRequest
  dsimp only
  split
  · exact .inl ⟨rfl, fun _ _ _ _ => nofun⟩
  · split
    · rename_i hnone
      exact .inr (.inr ⟨rfl, fun vendor h => by rw [hnone] at h; cases h⟩)
    · rename_i vendor hvendor
      split
      · right; left
        split <;> rfl
      · rename_i hpxe
        refine .inr (.inr ⟨rfl, fun vendor' h => ?_⟩)
        rw [hvendor] at h
        cases h
        exact Bool.eq_false_iff.mpr hpxe

theorem named_eq_some {command data cmd name : List Char} {rest : List (List Char)}
    (hdata : data.splitOn ' ' = cmd :: name :: rest) (hcmd : cmd = command) :
    named command data = some (lower name) := by
  rw [named, hdata]
  exact if_pos hcmd

/-- An access-control request adds the machine it grants, removes the one it revokes, or
keeps the list. -/
theorem acl_processAclRequest (data : List Char) :
    (∃ name, named "addacl".toList data = some name ∧ named "delacl".toList data = none ∧
      (processAclRequest s data).1.acl = s.acl.insert name true) ∨
    (∃ name, named "delacl".toList data = some name ∧
      (processAclRequest s data).1.acl = s.acl.erase name) ∨
    (named "delacl".toList data = none ∧ (processAclRequest s data).1.acl = s.acl) := by
  have hdel : ∀ {cmd rest}, data.splitOn ' ' = cmd :: rest →
      cmd ≠ "delacl".toList ∨ rest = [] → named "delacl".toList data = none := by
    intro cmd rest hdata h
    rw [named, hdata]
    cases rest with
    | nil => rfl
    | cons name rest => exact if_neg (h.resolve_right nofun)
  unfold processAclRequest
  split
  · rename_i hdata
    exact .inr (.inr ⟨by rw [named, hdata], rfl⟩)
  · rename_i cmd rest hdata
    split
    · rename_i hadd
      split
      · exact .inr (.inr ⟨hdel hdata (.inr rfl), rfl⟩)
      · rename_i name _
        have hne : cmd ≠ "delacl".toList := hadd ▸ by decide
        exact .inl ⟨lower name, named_eq_some hdata hadd, hdel hdata (.inl hne), rfl⟩
    · split
      · rename_i hcmd
        split
        · exact .inr (.inr ⟨hdel hdata (.inr rfl), rfl⟩)
        · rename_i name _
          exact .inr (.inl ⟨lower name, named_eq_some hdata hcmd, rfl⟩)
      · rename_i hcmd
        refine .inr (.inr ⟨hdel hdata (.inl hcmd), ?_⟩)
        repeat' split
        all_goals rfl

theorem Boots.is_request (h : Boots s m mac) : ∃ packet, m = .request packet := by
  obtain ⟨⟨packet, _, hm, _⟩, _⟩ := h
  exact ⟨packet, hm⟩

/-- A machine that is in the list after a request was in it before, and the request did
not boot it. -/
theorem allowed_request {packet : DhcpPacket}
    (h : Allowed (handleDhcpRequest s packet).1 mac) :
    Allowed s mac ∧ ¬ Boots s (.request packet) mac := by
  rcases acl_request (s := s) packet with ⟨hacl, hsent⟩ | hacl | ⟨hacl, hpxe⟩
  · rw [Allowed, hacl] at h
    refine ⟨h, ?_⟩
    rintro ⟨⟨_, vendor, hm, _, hv, hp⟩, reply, hr, _⟩
    cases hm
    exact hsent vendor reply hv hp hr
  · rw [Allowed, hacl, Dict.get?_erase] at h
    split at h
    · cases h
    · rename_i hne
      refine ⟨h, ?_⟩
      rintro ⟨⟨_, _, hm, hmac, _⟩, _⟩
      cases hm
      exact hne hmac.symm
  · rw [Allowed, hacl] at h
    refine ⟨h, ?_⟩
    rintro ⟨⟨_, vendor, hm, _, hv, hp⟩, _⟩
    cases hm
    rw [hpxe vendor hv] at hp
    cases hp

/-- A machine that is in the list after an access-control request was added by it, or was
in the list and is not revoked. -/
theorem allowed_acl {data : List Char} (h : Allowed (processAclRequest s data).1 mac) :
    GrantsTo (.acl data) mac ∨ Allowed s mac ∧ ¬ RevokesFrom (.acl data) mac := by
  have hkeep : named "delacl".toList data = none → ¬ RevokesFrom (.acl data) mac := by
    rintro hn ⟨_, hm, hdel⟩
    cases hm
    rw [hn] at hdel
    cases hdel
  rcases acl_processAclRequest (s := s) data with
    ⟨name, hadd, hn, hacl⟩ | ⟨name, hdel, hacl⟩ | ⟨hn, hacl⟩
  · rw [Allowed, hacl, Dict.get?_insert] at h
    split at h
    · rename_i hmac
      exact .inl ⟨data, rfl, hmac ▸ hadd⟩
    · exact .inr ⟨h, hkeep hn⟩
  · rw [Allowed, hacl, Dict.get?_erase] at h
    split at h
    · cases h
    · rename_i hne
      refine .inr ⟨h, ?_⟩
      rintro ⟨_, hm, hdel'⟩
      cases hm
      exact hne (Option.some.inj (hdel'.symm.trans hdel))
  · rw [Allowed, hacl] at h
    exact .inr ⟨h, hkeep hn⟩

/-- A machine in the list after a message is granted by it, or was in the list and the
message neither revokes the grant nor boots the machine. -/
theorem allowed_step (h : Allowed (step s m).1 mac) :
    GrantsTo m mac ∨ Allowed s mac ∧ ¬ RevokesFrom m mac ∧ ¬ Boots s m mac := by
  have hrev : (∀ data, m ≠ .acl data) → ¬ RevokesFrom m mac := by
    rintro hm ⟨data, hacl, _⟩
    exact hm data hacl
  have hboot : (∀ packet, m ≠ .request packet) → ¬ Boots s m mac := by
    intro hm hb
    obtain ⟨packet, hreq⟩ := hb.is_request
    exact hm packet hreq
  cases m with
  | discover packet =>
    rw [Allowed, step, acl_discover] at h
    exact .inr ⟨h, hrev nofun, hboot nofun⟩
  | request packet =>
    obtain ⟨h, hb⟩ := allowed_request h
    exact .inr ⟨h, hrev nofun, hb⟩
  | decline packet => exact .inr ⟨h, hrev nofun, hboot nofun⟩
  | release packet => exact .inr ⟨h, hrev nofun, hboot nofun⟩
  | acl data =>
    rcases allowed_acl h with hg | ⟨h, hr⟩
    · exact .inl hg
    · exact .inr ⟨h, hr, hboot nofun⟩

/-! ## Requests -/

/-- A PXE request of a machine that can have an address, that was offered the configured
boot file, and that is not in the list any more. -/
def StaleRequest (s : Services) (m : Message) : Prop :=
  ∃ mac bootfile, PxeRequest m mac ∧ (assignIp s.leases mac).2.isSome ∧
    s.macToBootfile.get? mac = some bootfile ∧
    fileField bootfile = fileField s.config.filename ∧ ¬ Allowed s mac

theorem file_of_pxeAck {c : Config} {giaddr value : List Nat} {ip : Ip} {bootfile : List Char}
    (h : (.file, value) ∈ (pxeAck c giaddr ip bootfile).fields) : value = fileField bootfile := by
  have hmem := (List.mem_filter.mp h).1
  simpa using hmem

theorem sent_of_send {reply reply' : Reply} (h : sendDhcpPacketTo reply = .sent reply') :
    reply' = reply := by
  unfold sendDhcpPacketTo at h
  split at h
  · exact (Output.sent.inj h).symm
  · cases h

/-- A machine is told the configured boot file when it has been offered it. -/
theorem Boots.offered (h : Boots s m mac) :
    ∃ bootfile, (assignIp s.leases mac).2.isSome ∧ s.macToBootfile.get? mac = some bootfile ∧
      fileField bootfile = fileField s.config.filename := by
  obtain ⟨⟨packet, vendor, rfl, rfl, hv, hp⟩, reply, hsent, _, hfile⟩ := h
  rw [step, handleDhcpRequest, hv] at hsent
  dsimp only at hsent
  cases hip : assignIp s.leases (macAddr packet) with
  | mk l ip =>
    rw [hip] at hsent
    cases ip with
    | none => cases hsent
    | some ip =>
      dsimp only at hsent
      rw [if_pos hp] at hsent
      cases hboot : s.macToBootfile.get? (macAddr packet) with
      | none =>
        rw [hboot] at hsent
        cases hsent
      | some bootfile =>
        rw [hboot] at hsent
        rw [sent_of_send hsent] at hfile
        exact ⟨bootfile, rfl, rfl, (file_of_pxeAck hfile).symm⟩

/-! ## Runs -/

/-- Before message `k` the machine was granted a boot, and since then the grant was not
deleted and the machine not booted. -/
def Granted (s₀ : Services) (ms : List Message) (k : Nat) (mac : Mac) : Prop :=
  ∃ g < k, (∃ m, ms[g]? = some m ∧ GrantsTo m mac) ∧
    ∀ j m, g < j → j < k → ms[j]? = some m →
      ¬ RevokesFrom m mac ∧ ¬ Boots (stateAt step s₀ ms j) m mac

/-- Every acknowledgement that names the configured boot file has a grant of its own. -/
def OneBootPerGrant (s₀ : Services) (ms : List Message) : Prop :=
  ∀ k m mac, ms[k]? = some m → Boots (stateAt step s₀ ms k) m mac → Granted s₀ ms k mac

/-- A machine in the list has a grant that is neither deleted nor used. -/
theorem granted_of_allowed (hacl : s₀.acl = .empty) (hk : k ≤ ms.length)
    (h : Allowed (stateAt step s₀ ms k) mac) : Granted s₀ ms k mac := by
  induction k with
  | zero =>
    rw [stateAt_zero, Allowed, hacl] at h
    cases h
  | succ k ih =>
    have hm := List.getElem?_eq_getElem (l := ms) (i := k) (by omega)
    generalize ms[k] = m at hm
    rw [stateAt_succ hm] at h
    rcases allowed_step h with hg | ⟨hold, hrev, hboot⟩
    · exact ⟨k, by omega, ⟨m, hm, hg⟩, fun j _ h₁ h₂ => by omega⟩
    · obtain ⟨g, hgk, hgrant, hsince⟩ := ih (by omega) hold
      refine ⟨g, by omega, hgrant, fun j m' h₁ h₂ hj => ?_⟩
      rcases Nat.lt_succ_iff_lt_or_eq.mp h₂ with hlt | rfl
      · exact hsince j m' h₁ hlt hj
      · obtain rfl := Option.some.inj (hm.symm.trans hj)
        exact ⟨hrev, hboot⟩

/-- **In every run in which each PXE request of a machine that was offered the configured
boot file comes while the machine is in the access-control list, every
acknowledgement that names the file has a grant of its own.** -/
theorem one_boot_per_grant (config : Config) (ipStart : Ip) (poolSize : Nat) (ms : List Message)
    (h : ∀ k m, ms[k]? = some m →
      ¬ StaleRequest (stateAt step (Services.init config ipStart poolSize) ms k) m) :
    OneBootPerGrant (Services.init config ipStart poolSize) ms := by
  intro k m mac hm hboot
  have hk := (List.getElem?_eq_some_iff.mp hm).1
  refine granted_of_allowed rfl (by omega) (not_not.mp fun hnot => ?_)
  obtain ⟨bootfile, hip, hget, hfile⟩ := hboot.offered
  exact h k m hm ⟨mac, bootfile, hboot.1, hip, hget, hfile, hnot⟩

/-- The machine `0a` is granted a boot, is offered the boot file, and requests it the given
number of times. -/
def bootRun (requests : Nat) : List Message :=
  .acl "addacl 0A".toList ::
    .discover { hardware := [10], vendorClass := some "PXEClient:Arch".toList } ::
    List.replicate requests
      (.request { hardware := [10], vendorClass := some "PXEClient:Arch".toList })

theorem one_boot_per_grant_single :
    OneBootPerGrant (Services.init testConfig ⟨10, 0, 0, 100⟩ 2) (bootRun 1) := by
  refine one_boot_per_grant testConfig ⟨10, 0, 0, 100⟩ 2 (bootRun 1) ?_
  rintro k m hm ⟨mac, bootfile, ⟨packet, vendor, rfl, rfl, hv, hp⟩, _, _, _, hnot⟩
  match k with
  | 0 => cases hm
  | 1 => cases hm
  | 2 =>
    cases hm
    exact hnot (by decide)
  | k + 3 => cases hm

/-- With a second request the machine is told the boot file twice for one grant. -/
theorem second_request_boots_again :
    ¬ OneBootPerGrant (Services.init testConfig ⟨10, 0, 0, 100⟩ 2) (bootRun 2) := by
  have hboots : ∀ k, k = 2 ∨ k = 3 → Boots (stateAt step
      (Services.init testConfig ⟨10, 0, 0, 100⟩ 2) (bootRun 2) k)
      (.request { hardware := [10], vendorClass := some "PXEClient:Arch".toList })
      ['0', 'a'] := by
    intro k hk
    refine ⟨⟨_, _, rfl, by decide, rfl, by decide⟩,
      pxeAck testConfig [0, 0, 0, 0] ⟨10, 0, 0, 100⟩ testConfig.filename, ?_, rfl, ?_⟩
    · rcases hk with rfl | rfl
      · decide +kernel
      · decide +kernel
    · rcases hk with rfl | rfl
      · decide +kernel
      · decide +kernel
  intro h
  obtain ⟨g, hg, ⟨m, hm, data, rfl, _⟩, hsince⟩ := h 3 _ _ rfl (hboots 3 (.inr rfl))
  have hg0 : g = 0 := by
    match g with
    | 0 => rfl
    | 1 => cases hm
    | 2 => cases hm
  exact (hsince 2 _ (by omega) (by omega) rfl).2 (hboots 2 (.inl rfl))

end LoPhi.Pxe.Grants
