import LoPhi.Pxe.Codec
import LoPhi.Pxe.Leases

/-! # The DHCP server on the wire

A datagram is decoded, told apart by its message type and handled; the reply starts as a copy of
a few fields of the request and is encoded. What the handlers do to the leases and to the other
dictionaries is what the services of `Pxe.Dhcpd` do with the message that was decoded, so what
holds of their runs holds of every sequence of datagrams, whoever sends them. A reply that
leaves is read by its client as an answer to its own request. -/

namespace LoPhi.Pxe.Datagrams
open LoPhi.Lib LoPhi.Lib.Machine LoPhi.Pxe.Dhcpd LoPhi.Pxe.Leases LoPhi.Pxe.Wire LoPhi.Pxe.Codec

/-! ## Requests -/

/-- `GetHardwareAddress`. -/
def getHardwareAddress (p : Packet) : Except Raised (List Nat) :=
  match getOption p "hlen" with
  | [] => .error .indexError
  | length :: _ =>
    let fullHw := getOption p "chaddr"
    if length < fullHw.length then .ok (fullHw.take length) else .ok fullHw

/-- `IsDhcpSomethingPacket`. -/
def isDhcpSomethingPacket (p : Packet) (type : List Nat) : Bool :=
  isDhcpPacket p && isOption p "dhcp_message_type" && getOption p "dhcp_message_type" = type

/-- What the handlers read of a packet. -/
def view (p : Packet) (hardware : List Nat) : DhcpPacket where
  hardware := hardware
  vendorClass :=
    if isOption p "vendor_class_identifier" then
      some ((getOption p "vendor_class_identifier").map Char.ofNat)
    else none
  giaddr := getOption p "giaddr"

/-- The handler that `GetNextDhcpPacket` calls, if it is one that does more than log. -/
def handlerOf (p : Packet) : Option (DhcpPacket → Message) :=
  if isDhcpSomethingPacket p [1] then some .discover
  else if isDhcpSomethingPacket p [3] then some .request
  else if isDhcpSomethingPacket p [4] then some .decline
  else if isDhcpSomethingPacket p [7] then some .release
  else none

/-! ## Replies -/

/-- `SetOption` for one name after the other. -/
def setAll (p : Packet) : List (String × List Nat) → Except Raised Packet
  | [] => .ok p
  | (name, value) :: rest => do
    let (p, _) ← setOption p name value
    setAll p rest

def deleteAll (p : Packet) (names : List String) : Packet := names.foldl deleteOption p

/-- The same options of another packet. -/
def copied (src : Packet) (names : List String) : List (String × List Nat) :=
  names.map fun name => (name, getOption src name)

/-- `CreateDhcpOfferPacketFrom`. -/
def createDhcpOfferPacketFrom (src : Packet) : Except Raised Packet := do
  let p ← setAll .new
    (copied src ["htype", "xid", "flags", "giaddr", "chaddr", "ip_address_lease_time"])
  let p ← setAll p [("dhcp_message_type", [2]), ("op", [2]), ("hlen", [6])]
  pure (deleteAll p ["secs", "ciaddr", "request_ip_address", "parameter_request_list",
    "client_identifier", "maximum_message_size"])

/-- `CreateDhcpAckPacketFrom`. -/
def createDhcpAckPacketFrom (src : Packet) : Except Raised Packet := do
  let p ← setAll .new
    (copied src ["htype", "xid", "ciaddr", "flags", "giaddr", "chaddr", "ip_address_lease_time"])
  let p ← setAll p [("op", [2]), ("hlen", [6]), ("dhcp_message_type", [5])]
  pure (deleteAll p ["secs", "request_ip_address", "parameter_request_list",
    "client_identifier", "maximum_message_size"])

/-- The name of a field or an option that the handlers set. -/
def fieldName : Field → String
  | .flags => "flags"
  | .giaddr => "giaddr"
  | .yiaddr => "yiaddr"
  | .ciaddr => "ciaddr"
  | .siaddr => "siaddr"
  | .file => "file"
  | .sname => "sname"
  | .vendorClassIdentifier => "vendor_class_identifier"
  | .serverIdentifier => "server_identifier"
  | .ipAddressLeaseTime => "ip_address_lease_time"
  | .renewalTimeValue => "renewal_time_value"
  | .rebindingTimeValue => "rebinding_time_value"
  | .subnetMask => "subnet_mask"
  | .broadcastAddress => "broadcast_address"
  | .router => "router"
  | .domainNameServer => "domain_name_server"

def createFrom (src : Packet) : Kind → Except Raised Packet
  | .offer => createDhcpOfferPacketFrom src
  | .ack => createDhcpAckPacketFrom src

/-- The packet that a handler sends. -/
def responsePacket (src : Packet) (reply : Reply) : Except Raised Packet := do
  let p ← createFrom src reply.kind
  setAll p (reply.fields.map fun f => (fieldName f.1, f.2))

/-! ## The server -/

/-- What a datagram leads to. -/
inductive Answer where
  | nothing
  | sent (datagram : List UInt8)
  | raised (e : Raised)
  deriving DecidableEq, Repr

/-- What a handler sends, encoded. -/
def answer (src : Packet) : Output → Answer
  | .sent reply =>
    match responsePacket src reply >>= encodePacket with
    | .ok datagram => .sent datagram
    | .error e => .raised e
  | .raised e => .raised e
  | _ => .nothing

/-- `GetNextDhcpPacket` for a datagram. -/
def receive (s : Services) (data : List UInt8) : Services × Answer :=
  if data = [] then (s, .nothing)
  else
    match decodePacket data with
    | .error e => (s, .raised e)
    | .ok p =>
      match handlerOf p with
      | none => (s, .nothing)
      | some handler =>
        match getHardwareAddress p with
        | .error e => (s, .raised e)
        | .ok hardware =>
          let (s, out) := step s (handler (view p hardware))
          (s, answer p out)

/-- What comes in: a datagram to the DHCP server, or a line to the access-control server. -/
inductive Input where
  | datagram (data : List UInt8)
  | command (data : List Char)
  deriving DecidableEq, Repr

def serve (s : Services) : Input → Services × Answer
  | .datagram data => receive s data
  | .command data => ((step s (.acl data)).1, .nothing)

/-! ## Every run of datagrams is a run of messages -/

/-- The message that a datagram is. -/
def messageOf (data : List UInt8) : Option Message :=
  if data = [] then none
  else
    match decodePacket data with
    | .error _ => none
    | .ok p =>
      match handlerOf p, getHardwareAddress p with
      | some handler, .ok hardware => some (handler (view p hardware))
      | _, _ => none

def message : Input → Option Message
  | .datagram data => messageOf data
  | .command data => some (.acl data)

variable {s s' : Services} {p q src : Packet} {name : String} {value : List Nat}
  {l : List (String × List Nat)} {data reply : List UInt8}

/-- A datagram does to the services what its message does, and nothing if it is none. -/
theorem serve_services (s : Services) (input : Input) :
    (serve s input).1 = match message input with
      | none => s
      | some m => (step s m).1 := by
  cases input with
  | command data => rfl
  | datagram data =>
    show (receive s data).1 = match messageOf data with
      | none => s
      | some m => (step s m).1
    unfold receive messageOf
    split
    · rfl
    · cases decodePacket data with
      | error e => rfl
      | ok p =>
        dsimp only
        cases handlerOf p with
        | none => rfl
        | some handler =>
          dsimp only
          cases getHardwareAddress p with
          | error e => rfl
          | ok hardware => rfl

theorem serve_run (s : Services) (inputs : List Input) :
    run serve s inputs = run step s (inputs.filterMap message) := by
  induction inputs generalizing s with
  | nil => rfl
  | cons input inputs ih =>
    rw [run_cons, ih, serve_services]
    cases h : message input with
    | none => rw [List.filterMap_cons_none h]
    | some m =>
      rw [List.filterMap_cons_some h]
      rfl

/-! ## What is set in a reply -/

theorem setAll_cons (h : setAll p ((name, value) :: l) = .ok q) :
    ∃ p' b, setOption p name value = .ok (p', b) ∧ setAll p' l = .ok q := by
  unfold setAll at h
  cases hset : setOption p name value with
  | error e =>
    rw [hset] at h
    cases h
  | ok result =>
    rw [hset] at h
    exact ⟨result.1, result.2, rfl, h⟩

theorem built_setAll (h : Built p) (hset : setAll p l = .ok q) : Built q := by
  induction l generalizing p with
  | nil =>
    cases hset
    exact h
  | cons e l ih =>
    obtain ⟨p', b, hone, hrest⟩ := setAll_cons hset
    exact ih (h.set hone) hrest

/-- What is not set stays. -/
theorem getOption_setAll (h : Built p) (hset : setAll p l = .ok q)
    (hname : ∀ e ∈ l, e.1 ≠ name) : getOption q name = getOption p name := by
  induction l generalizing p with
  | nil =>
    cases hset
    rfl
  | cons e l ih =>
    obtain ⟨p', b, hone, hrest⟩ := setAll_cons hset
    have hne : ¬ (b = true ∧ name = e.1) := fun heq => hname e List.mem_cons_self heq.2.symm
    rw [ih (h.set hone) hrest fun e' he' => hname e' (List.mem_cons_of_mem e he'),
      getOption_setOption h.wellFormed hone, if_neg hne]

/-- A value that is taken, whatever else is set. -/
def Taken (name : String) (value : List Nat) : Prop :=
  ∀ p, ∃ q, setOption p name value = .ok (q, true)

theorem taken_field {place size : Nat} (h : dhcpFields.lookup name = some (place, size))
    (hvalue : value.length = size) : Taken name value := by
  intro p
  unfold setOption
  rw [h]
  dsimp only
  rw [if_neg (not_not.mpr hvalue)]
  exact ⟨_, rfl⟩

theorem getOption_setAll_mem (h : Built p) (hset : setAll p l = .ok q)
    (hnodup : (l.map Prod.fst).Nodup) (hmem : (name, value) ∈ l) (htaken : Taken name value) :
    getOption q name = value := by
  induction l generalizing p with
  | nil => cases hmem
  | cons e l ih =>
    obtain ⟨hnot, hrest⟩ := List.nodup_cons.mp hnodup
    obtain ⟨p', b, hone, hothers⟩ := setAll_cons hset
    rcases List.mem_cons.mp hmem with rfl | hmem
    · obtain ⟨q', htake⟩ := htaken p
      rw [htake] at hone
      cases hone
      rw [getOption_setAll (h.set htake) hothers, getOption_setOption h.wellFormed htake,
        if_pos ⟨rfl, rfl⟩]
      intro e' he' heq
      exact hnot (List.mem_map.mpr ⟨e', he', heq⟩)
    · exact ih (h.set hone) hothers hrest hmem

theorem get?_setAll (hset : setAll p l = .ok q) (hname : ∀ e ∈ l, e.1 ≠ name) :
    q.optionsData.get? name = p.optionsData.get? name := by
  induction l generalizing p with
  | nil =>
    cases hset
    rfl
  | cons e l ih =>
    obtain ⟨p', b, hone, hrest⟩ := setAll_cons hset
    rw [ih hrest fun e' he' => hname e' (List.mem_cons_of_mem e he'),
      get?_setOption hone fun heq => hname e List.mem_cons_self heq.symm]

theorem built_deleteAll (h : Built p) (names : List String) : Built (deleteAll p names) := by
  induction names generalizing p with
  | nil => exact h
  | cons name names ih => exact ih (h.delete name)

theorem getOption_deleteAll (h : Built p) {names : List String} (hname : name ∉ names) :
    getOption (deleteAll p names) name = getOption p name := by
  induction names generalizing p with
  | nil => rfl
  | cons name' names ih =>
    rw [List.mem_cons, not_or] at hname
    show getOption (deleteAll (deleteOption p name') names) name = _
    rw [ih (h.delete name') hname.2, getOption_deleteOption h.wellFormed hname.1]

theorem get?_deleteAll (h : p.optionsData.get? name = none) (names : List String) :
    (deleteAll p names).optionsData.get? name = none := by
  induction names generalizing p with
  | nil => exact h
  | cons name' names ih => exact ih (get?_deleteOption h)

/-! ## What a reply says -/

theorem bind_returns {α β : Type} {x : Except Raised α} {f : α → Except Raised β} {b : β}
    (h : (x >>= f) = .ok b) : ∃ a, x = .ok a ∧ f a = .ok b := by
  cases x with
  | error e => cases h
  | ok a => exact ⟨a, rfl, h⟩

/-- The packet is an answer of this type to the request. -/
structure Answers (src r : Packet) (type : List Nat) : Prop where
  htype : getOption r "htype" = getOption src "htype"
  xid : getOption r "xid" = getOption src "xid"
  chaddr : getOption r "chaddr" = getOption src "chaddr"
  op : getOption r "op" = [2]
  type : getOption r "dhcp_message_type" = type

/-- The names that say which request is answered, and how. -/
def answering : List String := ["htype", "xid", "chaddr", "op", "dhcp_message_type"]

/-- The names that a reader does not read back. -/
def unread : List String := ["pad", "nb_node_type"]

theorem Answers.of_getOption {r : Packet} {type : List Nat} (h : Answers src r type)
    (heq : ∀ name ∈ answering, getOption q name = getOption r name) : Answers src q type where
  htype := (heq _ (by simp [answering])).trans h.htype
  xid := (heq _ (by simp [answering])).trans h.xid
  chaddr := (heq _ (by simp [answering])).trans h.chaddr
  op := (heq _ (by simp [answering])).trans h.op
  type := (heq _ (by simp [answering])).trans h.type

theorem taken_type (type : Nat) : Taken "dhcp_message_type" [type] := by
  intro p
  have hfield : dhcpFields.lookup "dhcp_message_type" = none := rfl
  have hcode : codeOf "dhcp_message_type" = some 53 := rfl
  have hspecs : dhcpOptionsTypes[53]?.bind fieldsSpecs = some (1, 0, 1) := rfl
  unfold setOption
  rw [hfield, hcode]
  dsimp only
  rw [hspecs]
  dsimp only
  rw [if_pos ⟨Nat.zero_le _, Nat.mod_one _⟩]
  exact ⟨_, rfl⟩

theorem taken_copied (h : src.packetData.length = 240) {place size : Nat}
    (hfield : dhcpFields.lookup name = some (place, size)) : Taken name (getOption src name) := by
  refine taken_field hfield ?_
  have hplace := field_place hfield
  rw [getOption, hfield]
  dsimp only
  rw [List.length_take, List.length_drop, h]
  omega

/-- How a reply begins: fields of the request are copied, others are set and deleted. -/
theorem created {names deleted : List String} {settings : List (String × List Nat)}
    {r : Packet} {type : Nat} (h : src.packetData.length = 240)
    (hr : (do
      let p ← setAll .new (copied src names)
      let p ← setAll p settings
      pure (deleteAll p deleted) : Except Raised Packet) = .ok r)
    (hnames : names.Nodup) (hcopied : ∀ name ∈ ["htype", "xid", "chaddr"], name ∈ names)
    (hkept : ∀ e ∈ settings, e.1 ∉ ["htype", "xid", "chaddr"] ++ unread)
    (hunread : ∀ name ∈ unread, name ∉ names)
    (hsettings : (settings.map Prod.fst).Nodup) (hop : ("op", [2]) ∈ settings)
    (htype : ("dhcp_message_type", [type]) ∈ settings)
    (hdeleted : ∀ name ∈ answering, name ∉ deleted) :
    Built r ∧ Answers src r [type] ∧ ∀ name ∈ unread, r.optionsData.get? name = none := by
  obtain ⟨p₁, hcopy, hr⟩ := bind_returns hr
  obtain ⟨p₂, hset, hr⟩ := bind_returns hr
  cases hr
  have hbuilt₁ : Built p₁ := built_setAll .new hcopy
  have hbuilt₂ : Built p₂ := built_setAll hbuilt₁ hset
  have hfst : (copied src names).map Prod.fst = names := by
    simp [copied, Function.comp_def]
  have hfield : ∀ name ∈ ["htype", "xid", "chaddr"], (dhcpFields.lookup name).isSome := by
    decide
  have hcopies : ∀ name ∈ ["htype", "xid", "chaddr"],
      getOption (deleteAll p₂ deleted) name = getOption src name := by
    intro name hname
    obtain ⟨⟨place, size⟩, hplace⟩ := Option.isSome_iff_exists.mp (hfield name hname)
    have hanswering : name ∈ answering := by
      simp only [List.mem_cons, List.not_mem_nil, or_false] at hname
      rcases hname with rfl | rfl | rfl <;> simp [answering]
    rw [getOption_deleteAll hbuilt₂ (hdeleted name hanswering),
      getOption_setAll hbuilt₁ hset fun e he heq =>
        hkept e he (heq ▸ List.mem_append_left _ hname),
      getOption_setAll_mem .new hcopy (hfst.symm ▸ hnames)
        (List.mem_map.mpr ⟨name, hcopied name hname, rfl⟩) (taken_copied h hplace)]
  have hplace : dhcpFields.lookup "op" = some (0, 1) := rfl
  refine ⟨built_deleteAll hbuilt₂ deleted, ⟨?_, ?_, ?_, ?_, ?_⟩, fun name hname => ?_⟩
  · exact hcopies _ (by simp)
  · exact hcopies _ (by simp)
  · exact hcopies _ (by simp)
  · rw [getOption_deleteAll hbuilt₂ (hdeleted _ (by simp [answering])),
      getOption_setAll_mem hbuilt₁ hset hsettings hop (taken_field hplace rfl)]
  · rw [getOption_deleteAll hbuilt₂ (hdeleted _ (by simp [answering])),
      getOption_setAll_mem hbuilt₁ hset hsettings htype (taken_type type)]
  · refine get?_deleteAll ?_ deleted
    rw [get?_setAll hset fun e he heq => hkept e he (heq ▸ List.mem_append_right _ hname),
      get?_setAll hcopy fun e he heq => ?_]
    · rfl
    · obtain ⟨name', hname', rfl⟩ := List.mem_map.mp he
      exact hunread name hname (heq ▸ hname')

/-- The message type of a reply. -/
def typeOf : Kind → Nat
  | .offer => 2
  | .ack => 5

theorem create_answers (kind : Kind) {r : Packet} (h : src.packetData.length = 240)
    (hr : createFrom src kind = .ok r) :
    Built r ∧ Answers src r [typeOf kind] ∧
      ∀ name ∈ unread, r.optionsData.get? name = none := by
  cases kind with
  | offer =>
    exact created h hr (by decide) (by decide) (by decide)
      (by decide) (by decide) (by decide) (by decide)
      (by decide)
  | ack =>
    exact created h hr (by decide) (by decide) (by decide)
      (by decide) (by decide) (by decide) (by decide)
      (by decide)

theorem fieldName_other (f : Field) : fieldName f ∉ answering ++ unread := by
  cases f <;> decide

def fields : List Field :=
  [.flags, .giaddr, .yiaddr, .ciaddr, .siaddr, .file, .sname, .vendorClassIdentifier,
    .serverIdentifier, .ipAddressLeaseTime, .renewalTimeValue, .rebindingTimeValue, .subnetMask,
    .broadcastAddress, .router, .domainNameServer]

theorem fieldName_injective {f g : Field} (h : fieldName f = fieldName g) : f = g := by
  have hall : ∀ f, f ∈ fields := fun f => by cases f <;> decide
  have hnodup : (fields.map fieldName).Nodup := by decide
  exact List.inj_on_of_nodup_map hnodup (hall f) (hall g) h

/-- A reply that gives an address. -/
structure Gives (ip : Ip) (reply : Reply) : Prop where
  address : (.yiaddr, ip.octets) ∈ reply.fields
  nodup : (reply.fields.map Prod.fst).Nodup

/-- The packet that a handler sends is an answer with the address. -/
theorem responsePacket_answers {ip : Ip} {reply : Reply} {r : Packet}
    (h : src.packetData.length = 240) (hgives : Gives ip reply)
    (hr : responsePacket src reply = .ok r) :
    Built r ∧ Answers src r [typeOf reply.kind] ∧ getOption r "yiaddr" = ip.octets ∧
      ∀ name ∈ unread, r.optionsData.get? name = none := by
  obtain ⟨p, hcreate, hset⟩ := bind_returns hr
  obtain ⟨hbuilt, hanswers, hunread⟩ := create_answers reply.kind h hcreate
  have hother : ∀ name ∈ answering ++ unread,
      ∀ e ∈ reply.fields.map (fun f => (fieldName f.1, f.2)), e.1 ≠ name := by
    intro name hname e he heq
    obtain ⟨f, -, rfl⟩ := List.mem_map.mp he
    change fieldName f.1 = name at heq
    rw [← heq] at hname
    exact fieldName_other f.1 hname
  refine ⟨built_setAll hbuilt hset, ?_, ?_, fun name hname => ?_⟩
  · exact hanswers.of_getOption fun name hname =>
      getOption_setAll hbuilt hset (hother name (List.mem_append_left _ hname))
  · have hplace : dhcpFields.lookup "yiaddr" = some (16, 4) := rfl
    have hnames : (reply.fields.map fun f => (fieldName f.1, f.2)).map Prod.fst =
        (reply.fields.map Prod.fst).map fieldName := by simp
    refine getOption_setAll_mem hbuilt hset ?_ ?_ (taken_field hplace rfl)
    · rw [hnames]
      exact hgives.nodup.map fun f g heq => fieldName_injective heq
    · exact List.mem_map.mpr ⟨_, hgives.address, rfl⟩
  · rw [get?_setAll hset (hother name (List.mem_append_right _ hname))]
    exact hunread name hname

/-! ## Which address a reply gives -/

theorem gives_setOptions {ip : Ip} {kind : Kind} {fields : List (Field × List Nat)}
    (hmem : (.yiaddr, ip.octets) ∈ fields) (hnodup : (fields.map Prod.fst).Nodup) :
    Gives ip (setOptions kind fields) where
  address := List.mem_filter.mpr ⟨hmem, by simp [Field.fixedLength, Ip.octets]⟩
  nodup := hnodup.sublist (List.filter_sublist.map Prod.fst)

theorem sendDhcpPacketTo_sent {reply reply' : Reply} (h : sendDhcpPacketTo reply = .sent reply') :
    reply' = reply := by
  unfold sendDhcpPacketTo at h
  split at h
  · cases h
    rfl
  · cases h

/-- The address that is chosen is leased. -/
theorem assignIp_leased {l l' : Leases} {mac : Mac} {ip : Ip}
    (h : assignIp l mac = (l', some ip)) : l'.macToIp.get? mac = some ip := by
  unfold assignIp at h
  dsimp only at h
  split at h
  · cases h
  · cases h
    exact (Dict.get?_insert).trans (if_pos rfl)

/-- A reply gives the machine the address it is leased. -/
theorem step_sent {m : Message} {reply : Reply} (h : (step s m).2 = .sent reply) :
    ∃ packet ip, ((m = .discover packet ∧ reply.kind = .offer) ∨
        (m = .request packet ∧ reply.kind = .ack)) ∧
      (step s m).1.leases.macToIp.get? (macAddr packet) = some ip ∧ Gives ip reply := by
  cases m with
  | discover packet =>
    change (handleDhcpDiscover s packet).2 = _ at h
    show ∃ packet' ip, _ ∧ (handleDhcpDiscover s packet).1.leases.macToIp.get? _ = _ ∧ _
    unfold handleDhcpDiscover at h ⊢
    dsimp only at h ⊢
    cases hassign : assignIp s.leases (macAddr packet) with
    | mk l found =>
      rw [hassign] at h
      cases found with
      | none => cases h
      | some ip =>
        have hleased := assignIp_leased hassign
        dsimp only at h ⊢
        cases hclass : packet.vendorClass with
        | none =>
          rw [hclass] at h
          cases h
        | some identifier =>
          rw [hclass] at h
          dsimp only at h ⊢
          split at h
          · rename_i hpxe
            rw [if_pos hpxe]
            rw [sendDhcpPacketTo_sent h]
            refine ⟨packet, ip, .inl ⟨rfl, rfl⟩, hleased, gives_setOptions ?_ ?_⟩
            · simp
            · simp
          · rename_i hplain
            rw [if_neg hplain]
            rw [sendDhcpPacketTo_sent h]
            refine ⟨packet, ip, .inl ⟨rfl, rfl⟩, hleased, gives_setOptions ?_ ?_⟩
            · simp
            · simp
  | request packet =>
    change (handleDhcpRequest s packet).2 = _ at h
    show ∃ packet' ip, _ ∧ (handleDhcpRequest s packet).1.leases.macToIp.get? _ = _ ∧ _
    unfold handleDhcpRequest at h ⊢
    dsimp only at h ⊢
    cases hassign : assignIp s.leases (macAddr packet) with
    | mk l found =>
      rw [hassign] at h
      cases found with
      | none => cases h
      | some ip =>
        have hleased := assignIp_leased hassign
        dsimp only at h ⊢
        cases hclass : packet.vendorClass with
        | none =>
          rw [hclass] at h
          cases h
        | some identifier =>
          rw [hclass] at h
          dsimp only at h ⊢
          split at h
          · rename_i hpxe
            rw [if_pos hpxe]
            split at h
            · cases h
            · rw [sendDhcpPacketTo_sent h]
              refine ⟨packet, ip, .inr ⟨rfl, rfl⟩, hleased, gives_setOptions ?_ ?_⟩
              · simp
              · simp
          · rename_i hplain
            rw [if_neg hplain]
            rw [sendDhcpPacketTo_sent h]
            refine ⟨packet, ip, .inr ⟨rfl, rfl⟩, hleased, gives_setOptions ?_ ?_⟩
            · simp
            · simp
  | decline packet => cases h
  | release packet => cases h
  | acl data =>
    change (processAclRequest s data).2 = _ at h
    unfold processAclRequest at h
    repeat' split at h
    all_goals cases h

/-! ## What a client reads -/

theorem getOption_same (h : Same p q) (name : String) : getOption q name = getOption p name := by
  unfold getOption
  rw [h.1, h.2]

theorem isDhcpPacket_length (h : isDhcpPacket p = true) (hle : p.packetData.length ≤ 240) :
    p.packetData.length = 240 := by
  have hcookie : (p.packetData.drop 236).take 4 = magicCookie := of_decide_eq_true h
  have hlength := congrArg List.length hcookie
  rw [List.length_take, List.length_drop] at hlength
  change _ = 4 at hlength
  omega

theorem handlerOf_type {handler : DhcpPacket → Message} (h : handlerOf p = some handler) :
    isDhcpPacket p = true ∧ ∀ packet packet',
      (handler packet = .discover packet' →
        packet = packet' ∧ getOption p "dhcp_message_type" = [1]) ∧
      (handler packet = .request packet' →
        packet = packet' ∧ getOption p "dhcp_message_type" = [3]) := by
  unfold handlerOf isDhcpSomethingPacket at h
  simp only [Bool.and_eq_true, decide_eq_true_eq] at h
  split at h
  · rename_i htype
    cases h
    exact ⟨htype.1.1, fun packet packet' =>
      ⟨fun heq => ⟨Message.discover.inj heq, htype.2⟩, nofun⟩⟩
  · split at h
    · rename_i htype
      cases h
      exact ⟨htype.1.1, fun packet packet' =>
        ⟨nofun, fun heq => ⟨Message.request.inj heq, htype.2⟩⟩⟩
    · split at h
      · rename_i htype
        cases h
        exact ⟨htype.1.1, fun packet packet' => ⟨nofun, nofun⟩⟩
      · split at h
        · rename_i htype
          cases h
          exact ⟨htype.1.1, fun packet packet' => ⟨nofun, nofun⟩⟩
        · cases h

theorem answer_sent {out : Output} (h : answer p out = .sent reply) :
    ∃ r response, out = .sent r ∧ responsePacket p r = .ok response ∧
      encodePacket response = .ok reply := by
  cases out with
  | nothing => cases h
  | answered text => cases h
  | raised e => cases h
  | sent r =>
    unfold answer at h
    dsimp only at h
    cases hencode : responsePacket p r >>= encodePacket with
    | error e =>
      rw [hencode] at h
      cases h
    | ok datagram =>
      rw [hencode] at h
      cases h
      obtain ⟨response, hresponse, hencode⟩ := bind_returns hencode
      exact ⟨r, response, rfl, hresponse, hencode⟩

/-- A datagram that is answered was handled. -/
theorem receive_handled (h : (receive s data).2 = .sent reply) :
    ∃ p handler hardware, decodePacket data = .ok p ∧ handlerOf p = some handler ∧
      getHardwareAddress p = .ok hardware ∧
      receive s data = ((step s (handler (view p hardware))).1,
        answer p (step s (handler (view p hardware))).2) := by
  unfold receive at h ⊢
  split at h
  · cases h
  · rename_i hdata
    rw [if_neg hdata]
    cases hdecode : decodePacket data with
    | error e =>
      rw [hdecode] at h
      cases h
    | ok p =>
      rw [hdecode] at h
      dsimp only at h ⊢
      cases hhandler : handlerOf p with
      | none =>
        rw [hhandler] at h
        cases h
      | some handler =>
        rw [hhandler] at h
        dsimp only at h ⊢
        cases hhardware : getHardwareAddress p with
        | error e =>
          rw [hhardware] at h
          cases h
        | ok hardware => exact ⟨p, handler, hardware, rfl, hhandler, hhardware, rfl⟩

theorem length_decoded (h : decodePacket data = .ok p) : p.packetData.length ≤ 240 := by
  rw [decodePacket_eq] at h
  split at h
  · cases h
  · cases h
    exact List.length_take_le _ _

/-- What a reply that leaves the server tells its client, if the services are then these. -/
structure Replies (s : Services) (data reply : List UInt8) (p q : Packet) (mac : Mac) (ip : Ip) :
    Prop where
  request : decodePacket data = .ok p
  reply : decodePacket reply = .ok q
  machine : ∃ hardware, getHardwareAddress p = .ok hardware ∧ macAddr (view p hardware) = mac
  type : (getOption p "dhcp_message_type" = [1] ∧ Answers p q [2]) ∨
    (getOption p "dhcp_message_type" = [3] ∧ Answers p q [5])
  leased : s.leases.macToIp.get? mac = some ip
  address : getOption q "yiaddr" = ip.octets

theorem receive_sent (h : (receive s data).2 = .sent reply) :
    ∃ p q mac ip, Replies (receive s data).1 data reply p q mac ip := by
  obtain ⟨p, handler, hardware, hdecode, hhandler, hhardware, hreceive⟩ := receive_handled h
  obtain ⟨hdhcp, htype⟩ := handlerOf_type hhandler
  have hlength := isDhcpPacket_length hdhcp (length_decoded hdecode)
  rw [hreceive] at h ⊢
  dsimp only at h ⊢
  obtain ⟨r, response, hout, hresponse, hencode⟩ := answer_sent h
  obtain ⟨packet, ip, hmessage, hleased, hgives⟩ := step_sent hout
  obtain ⟨hbuilt, hanswers, hyiaddr, hunread⟩ :=
    responsePacket_answers hlength hgives hresponse
  obtain ⟨q, hq, hsame⟩ := decode_encode hbuilt.wellFormed hencode
    (hunread _ (by simp [unread])) (hunread _ (by simp [unread]))
  have hread : Answers p q [typeOf r.kind] :=
    hanswers.of_getOption fun name _ => getOption_same hsame name
  have haddress : getOption q "yiaddr" = ip.octets :=
    (getOption_same hsame "yiaddr").trans hyiaddr
  rcases hmessage with ⟨hm, hkind⟩ | ⟨hm, hkind⟩
  · obtain ⟨hpacket, hasked⟩ := (htype _ _).1 hm
    rw [hkind] at hread
    rw [← hpacket] at hleased
    exact ⟨p, q, _, ip, hdecode, hq, ⟨hardware, hhardware, rfl⟩, .inl ⟨hasked, hread⟩, hleased,
      haddress⟩
  · obtain ⟨hpacket, hasked⟩ := (htype _ _).2 hm
    rw [hkind] at hread
    rw [← hpacket] at hleased
    exact ⟨p, q, _, ip, hdecode, hq, ⟨hardware, hhardware, rfl⟩, .inr ⟨hasked, hread⟩, hleased,
      haddress⟩

/-- After any datagrams and commands, a reply that leaves the server decodes to an answer to the
request it was sent for: same transaction, same hardware address, an offer to a discover and an
acknowledgement to a request. It gives the machine the address it is leased then, and no other
machine has that address. -/
theorem replies_answer (config : Config) (ipStart : Ip) (poolSize : Nat) (inputs : List Input)
    (h : (receive (run serve (Services.init config ipStart poolSize) inputs) data).2 =
      .sent reply) :
    ∃ p q mac ip,
      Replies (receive (run serve (Services.init config ipStart poolSize) inputs) data).1
        data reply p q mac ip ∧
      ∀ mac', (receive (run serve (Services.init config ipStart poolSize)
        inputs) data).1.leases.macToIp.get? mac' = some ip → mac' = mac := by
  obtain ⟨p, q, mac, ip, hreplies⟩ := receive_sent h
  refine ⟨p, q, mac, ip, hreplies, fun mac' hmac' => ?_⟩
  have hafter : (receive (run serve (Services.init config ipStart poolSize) inputs) data).1 =
      run step (Services.init config ipStart poolSize)
        ((inputs ++ [Input.datagram data]).filterMap message) := by
    rw [← serve_run, run_append]
    rfl
  have hapart := apart_run config ipStart poolSize
    ((inputs ++ [Input.datagram data]).filterMap message)
  rw [← hafter] at hapart
  exact hapart.distinct mac' mac ip hmac' hreplies.leased

/-- A discover of a machine that boots from the network, by the last byte of its address. -/
def bootDiscover (last : UInt8) : List UInt8 :=
  [1, 1, 6, 0, 9, 8, 7, 6] ++ List.replicate 20 0 ++ [2, 0, 0, 0, 0, last] ++
    List.replicate 202 0 ++ [99, 130, 83, 99, 53, 1, 1, 60, 9] ++
    [80, 88, 69, 67, 108, 105, 101, 110, 116] ++ [255]

/-- Another machine has asked, something that is no packet came, and the machine was let boot. -/
def earlier : List Input :=
  [.datagram (bootDiscover 6), .datagram [1, 2, 3], .command "addacl 02:00:00:00:00:05".toList]

/-- What the machine is answered. -/
def bootOffer : List UInt8 :=
  match (receive (run serve (Services.init testConfig ⟨10, 0, 0, 100⟩ 2) earlier)
    (bootDiscover 5)).2 with
  | .sent reply => reply
  | _ => []

theorem replies_answer_boot :
    ∃ p q mac ip,
      Replies (receive (run serve (Services.init testConfig ⟨10, 0, 0, 100⟩ 2) earlier)
        (bootDiscover 5)).1 (bootDiscover 5) bootOffer p q mac ip ∧
      ∀ mac', (receive (run serve (Services.init testConfig ⟨10, 0, 0, 100⟩ 2) earlier)
        (bootDiscover 5)).1.leases.macToIp.get? mac' = some ip → mac' = mac :=
  replies_answer testConfig ⟨10, 0, 0, 100⟩ 2 earlier (by decide +kernel)

end LoPhi.Pxe.Datagrams
