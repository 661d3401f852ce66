import Mathlib.Data.List.Sort
import LoPhi.Lib.Tlv
import LoPhi.Pxe.Dhcpd

/-! # DHCP packets on the wire

A packet is a header of 240 bytes, with its fields at fixed places and the magic cookie at its
end, and a dictionary of options. On the wire the options follow the header as tagged records in
the order of their codes, and code 255 ends them.

What a name is, how long a value may be and which name a code is read as are tables of the
source. A value is a list of numbers; that they are bytes is noticed when the packet is encoded. -/

namespace LoPhi.Pxe.Wire
open LoPhi.Lib LoPhi.Lib.Tlv LoPhi.Pxe.Dhcpd

/-! ## Tables -/

def magicCookie : List Nat := [99, 130, 83, 99]

/-- `DhcpFields`: the place of a field and its length. -/
def dhcpFields : List (String × Nat × Nat) :=
  [("op", 0, 1), ("htype", 1, 1), ("hlen", 2, 1), ("hops", 3, 1), ("xid", 4, 4), ("secs", 8, 2),
    ("flags", 10, 2), ("ciaddr", 12, 4), ("yiaddr", 16, 4), ("siaddr", 20, 4), ("giaddr", 24, 4),
    ("chaddr", 28, 16), ("sname", 44, 64), ("file", 108, 128)]

/-- `DhcpOptions`. Of the codes that share the name `unassigned` the last one has it. -/
def dhcpOptions : List (String × Nat) :=
  [("pad", 0), ("subnet_mask", 1), ("time_offset", 2), ("router", 3), ("time_server", 4),
    ("name_server", 5), ("domain_name_server", 6), ("log_server", 7), ("cookie_server", 8),
    ("lpr_server", 9), ("impress_server", 10), ("resource_location_server", 11),
    ("host_name", 12), ("boot_file", 13), ("merit_dump_file", 14), ("domain_name", 15),
    ("swap_server", 16), ("root_path", 17), ("extensions_path", 18), ("ip_forwarding", 19),
    ("nonlocal_source_rooting", 20), ("policy_filter", 21),
    ("maximum_datagram_reassembly_size", 22), ("default_ip_time-to-live", 23),
    ("path_mtu_aging_timeout", 24), ("path_mtu_table", 25), ("interface_mtu", 26),
    ("all_subnets_are_local", 27), ("broadcast_address", 28), ("perform_mask_discovery", 29),
    ("mask_supplier", 30), ("perform_router_discovery", 31),
    ("routeur_solicitation_address", 32), ("static_route", 33), ("trailer_encapsulation", 34),
    ("arp_cache_timeout", 35), ("ethernet_encapsulation", 36), ("tcp_default_ttl", 37),
    ("tcp_keepalive_interval", 38), ("tcp_keepalive_garbage", 39), ("nis_domain", 40),
    ("nis_servers", 41), ("ntp_servers", 42), ("vendor_specific_information", 43), ("nbns", 44),
    ("nbdd", 45), ("nb_node_type", 46), ("nb_scope", 47), ("x_window_system_font_server", 48),
    ("x_window_system_display_manager", 49), ("request_ip_address", 50),
    ("ip_address_lease_time", 51), ("overload", 52), ("dhcp_message_type", 53),
    ("server_identifier", 54), ("parameter_request_list", 55), ("message", 56),
    ("maximum_dhcp_message_size", 57), ("renewal_time_value", 58), ("rebinding_time_value", 59),
    ("vendor_class_identifier", 60), ("client_identifier", 61), ("netware_ip_domain_name", 62),
    ("netware_ip_sub_options", 63), ("nis+_domain", 64), ("nis+_servers", 65),
    ("tftp_server_name", 66), ("bootfile_name", 67), ("mobile_ip_home_agent", 68),
    ("smtp_servers", 69), ("pop_servers", 70), ("nntp_servers", 71), ("default_www_server", 72),
    ("default_finger_server", 73), ("default_irc_server", 74), ("streettalk_server", 75),
    ("streettalk_directory_assistance_server", 76), ("user_class", 77), ("directory_agent", 78),
    ("service_scope", 79), ("rapid_commit", 80), ("client_fqdn", 81), ("relay_agent", 82),
    ("internet_storage_name_service", 83), ("84", 84), ("nds_server", 85), ("nds_tree_name", 86),
    ("nds_context", 87), ("88", 88), ("89", 89), ("authentication", 90),
    ("client_last_transaction_time", 91), ("associated_ip", 92), ("client_system", 93),
    ("client_ndi", 94), ("ldap", 95), ("uuid_guid", 97), ("open_group_user_auth", 98),
    ("netinfo_address", 112), ("netinfo_tag", 113), ("url", 114), ("unassigned", 115),
    ("auto_config", 116), ("name_service_search", 117), ("subnet_selection", 118),
    ("domain_search", 119), ("sip_servers", 120), ("classless_static_route", 121),
    ("cablelabs_client_configuration", 122), ("geoconf", 123), ("vendor_class", 124),
    ("vendor_specific", 125)] ++
    (List.range' 126 129).map (fun code => (toString code, code)) ++ [("end", 255)]

/-- `DhcpOptionsList`. -/
def dhcpOptionsList : List String :=
  ["pad", "subnet_mask", "time_offset", "router", "time_server", "name_server",
    "domain_name_server", "log_server", "cookie_server", "lpr_server", "impress_server",
    "resource_location_server", "host_name", "boot_file", "merit_dump_file", "domain_name",
    "swap_server", "root_path", "extensions_path", "ip_forwarding", "nonlocal_source_rooting",
    "policy_filter", "maximum_datagram_reassembly_size", "default_ip_time-to-live",
    "path_mtu_aging_timeout", "path_mtu_table", "interface_mtu", "all_subnets_are_local",
    "broadcast_address", "perform_mask_discovery", "mask_supplier", "perform_router_discovery",
    "routeur_solicitation_address", "static_route", "trailer_encapsulation", "arp_cache_timeout",
    "ethernet_encapsulation", "tcp_default_ttl", "tcp_keepalive_interval",
    "tcp_keepalive_garbage", "nis_domain", "nis_servers", "ntp_servers",
    "vendor_specific_information", "nbns", "nbdd", "nd_node_type", "nb_scope",
    "x_window_system_font_server", "x_window_system_display_manager", "request_ip_address",
    "ip_address_lease_time", "overload", "dhcp_message_type", "server_identifier",
    "parameter_request_list", "message", "maximum_dhcp_message_size", "renewal_time_value",
    "rebinding_time_value", "vendor_class_identifier", "client_identifier",
    "netware_ip_domain_name", "netware_ip_sub_options", "nis+_domain", "nis+_servers",
    "tftp_server_name", "bootfile_name", "mobile_ip_home_agent", "smtp_servers", "pop_servers",
    "nntp_servers", "default_www_server", "default_finger_server", "default_irc_server",
    "streettalk_server", "streettalk_directory_assistance_server", "user_class",
    "directory_agent", "service_scope", "rapid_commit", "client_fqdn", "relay_agent",
    "internet_storage_name_service", "84", "nds_server", "nds_tree_name", "nds_context", "88",
    "89", "authentication", "client_last_transaction_time", "associated_ip", "client_system",
    "client_ndi", "ldap", "unassigned", "uuid_guid", "open_group_user_auth", "unassigned",
    "unassigned", "unassigned", "unassigned", "unassigned", "unassigned", "unassigned",
    "unassigned", "unassigned", "unassigned", "unassigned", "unassigned", "unassigned",
    "netinfo_address", "netinfo_tag", "url", "unassigned", "auto_config", "name_service_search",
    "subnet_selection", "domain_search", "sip_servers", "classless_static_route",
    "cablelabs_client_configuration", "geoconf", "vendor_class", "vendor_specific"] ++
    (List.range' 126 129).map toString ++ ["end"]

/-- The types in `DhcpOptionsTypes`. -/
inductive OptionType where
  | none | ipv4 | ipv4s | string | bool | char | chars | bits16 | bits32 | identifier | null
  | rfc (number : Nat)
  | unassigned
  deriving DecidableEq, Repr

/-- `DhcpOptionsTypes`. The codes from 246 on have none. -/
def dhcpOptionsTypes : List OptionType :=
  ([.none, .ipv4, .ipv4, .ipv4s, .ipv4s, .ipv4s, .ipv4s, .ipv4s, .ipv4s, .ipv4s, .ipv4s, .ipv4s,
    .string, .bits16, .string, .string, .ipv4, .string, .string, .bool, .bool, .ipv4s, .bits16,
    .char, .ipv4, .bits16, .bits16, .bool, .ipv4, .bool, .bool, .bool, .ipv4, .ipv4s, .bool,
    .bits32, .bool, .char, .bits32, .bool, .string, .ipv4s, .ipv4s, .string, .ipv4s, .ipv4s,
    .char, .string, .ipv4s, .ipv4s, .ipv4, .bits32, .char, .char, .bits32, .chars, .string,
    .bits16, .bits32, .bits32, .string, .identifier, .string, .rfc 2242, .string, .ipv4s,
    .string, .string, .ipv4, .ipv4s, .ipv4s, .ipv4s, .ipv4s, .ipv4s, .ipv4s, .ipv4s, .ipv4s,
    .rfc 3004, .rfc 2610, .rfc 2610, .null, .string, .rfc 3046, .rfc 4174, .unassigned, .ipv4s,
    .rfc 2241, .rfc 2241, .unassigned, .unassigned, .rfc 3118, .rfc 4388, .ipv4s, .unassigned,
    .unassigned, .unassigned, .unassigned, .unassigned, .string, .unassigned, .unassigned,
    .unassigned, .unassigned, .unassigned, .unassigned, .unassigned, .unassigned, .unassigned,
    .unassigned, .unassigned, .unassigned, .unassigned, .unassigned, .unassigned, .unassigned,
    .unassigned, .char, .rfc 2937, .ipv4, .rfc 3397, .rfc 3361, .unassigned, .unassigned,
    .unassigned, .unassigned, .unassigned] : List OptionType) ++
    List.replicate 120 .unassigned

/-- `fields_specs`: a fixed length, a smallest length, and what the length is a multiple of. -/
def fieldsSpecs : OptionType → Option (Nat × Nat × Nat)
  | .ipv4 => some (4, 0, 1)
  | .ipv4s => some (0, 4, 4)
  | .string => some (0, 0, 1)
  | .bool => some (1, 0, 1)
  | .char => some (1, 0, 1)
  | .bits16 => some (2, 0, 1)
  | .bits32 => some (4, 0, 1)
  | .identifier => some (0, 2, 1)
  | .rfc 3397 => some (0, 4, 1)
  | .none => some (0, 0, 1)
  | .chars => some (0, 1, 1)
  | _ => none

/-- `DhcpOptions[name]`. -/
def codeOf (name : String) : Option Nat := dhcpOptions.lookup name

/-- `DhcpOptionsList[code]`. -/
def nameOf (code : Nat) : String := dhcpOptionsList.getD code ""

/-! ## Packets -/

/-- `DhcpBasicPacket`: `packet_data` and `options_data`. -/
structure Packet where
  packetData : List Nat
  optionsData : Dict String (List Nat)

/-- A new packet. -/
def Packet.new : Packet where
  packetData := List.replicate 236 0 ++ magicCookie
  optionsData := .empty

def isDhcpPacket (p : Packet) : Bool := (p.packetData.drop 236).take 4 = magicCookie

/-- `self.packet_data[begin:end] = value`. -/
def setSlice (data : List Nat) (first last : Nat) (value : List Nat) : List Nat :=
  data.take first ++ value ++ data.drop last

def deleteOption (p : Packet) (name : String) : Packet :=
  match dhcpFields.lookup name with
  | some (place, size) =>
    { p with packetData := setSlice p.packetData place (place + size) (List.replicate size 0) }
  | none => { p with optionsData := p.optionsData.erase name }

def getOption (p : Packet) (name : String) : List Nat :=
  match dhcpFields.lookup name with
  | some (place, size) => (p.packetData.drop place).take size
  | none => (p.optionsData.get? name).getD []

/-- `SetOption`: the packet after it, and whether the value was taken. The fixed length is
compared with the whole entry, so it never holds. -/
def setOption (p : Packet) (name : String) (value : List Nat) : Except Raised (Packet × Bool) :=
  match dhcpFields.lookup name with
  | some (place, size) =>
    if value.length ≠ size then .ok (p, false)
    else .ok ({ p with packetData := setSlice p.packetData place (place + size) value }, true)
  | none =>
    match codeOf name with
    | none => .ok (p, false)
    | some code =>
      match dhcpOptionsTypes[code]?.bind fieldsSpecs with
      | none => .error .keyError
      | some (_, smallest, multiple) =>
        if smallest ≤ value.length ∧ value.length % multiple = 0 then
          .ok ({ p with optionsData := p.optionsData.insert name value }, true)
        else .ok (p, false)

def isOption (p : Packet) (name : String) : Bool :=
  (p.optionsData.get? name).isSome || (dhcpFields.lookup name).isSome

/-! ## Encoding and decoding -/

/-- The options with their codes. -/
def coded (items : List (String × List Nat)) : Option (List Record) :=
  items.mapM fun o => (codeOf o.1).map fun code => (code, o.2)

/-- `order`, in the order of the codes. -/
def ordered (records : List Record) : List Record :=
  (records.foldl (fun (order : Dict Nat (List Nat)) r => order.insert r.1 r.2)
    .empty).items.insertionSort fun r r' => r.1 ≤ r'.1

/-- `map(chr, packet)`. -/
def chr (packet : List Nat) : Except Raised (List UInt8) :=
  if packet.all (· < 256) then .ok (packet.map UInt8.ofNat) else .error .valueError

def encodePacket (p : Packet) : Except Raised (List UInt8) :=
  match coded p.optionsData.items with
  | none => .error .keyError
  | some records => chr (p.packetData.take 240 ++ write (ordered records) ++ [255])

/-- What is behind the first magic cookie. -/
def afterCookie : List Nat → List Nat
  | [] => []
  | b :: rest => if (b :: rest).take 4 = magicCookie then (b :: rest).drop 4 else afterCookie rest

/-- The loop of `DecodePacket`. A turn takes at least one byte. -/
def parseOptions : Nat → List Nat → Dict String (List Nat) → Except Raised (Dict String (List Nat))
  | 0, _, options => .ok options
  | _ + 1, [], options => .ok options
  | fuel + 1, code :: rest, options =>
    if code = 0 then parseOptions fuel rest options
    else if code = 255 then .ok options
    else
      match rest with
      | [] => .error .indexError
      | size :: rest =>
        if dhcpOptionsTypes[code]?.isSome then
          parseOptions fuel (rest.drop size) (options.insert (nameOf code) (rest.take size))
        else parseOptions fuel (rest.drop size) options

def decodePacket (data : List UInt8) : Except Raised Packet :=
  let packetData := data.map UInt8.toNat
  let options := afterCookie (packetData.drop 236)
  (parseOptions options.length options .empty).map fun optionsData =>
    ⟨packetData.take 240, optionsData⟩

end LoPhi.Pxe.Wire
