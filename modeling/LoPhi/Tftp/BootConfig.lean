import Mathlib.Data.List.Induction
import LoPhi.Pxe.Leases
import LoPhi.Tftp.Sessions

/-! # Whose boot configuration is served

The access-control server notes a configuration for a machine, the DHCP server leases the machine
an address, and the TFTP server finds the configuration by the address a request comes from.
Leases are different in every state of the DHCP server, also where the pool is exceeded, so the
file that is opened is the one last set for the machine itself. It is not used up: it is served
until another is set. -/

namespace LoPhi.Tftp.BootConfig
open LoPhi.Lib LoPhi.Lib.Effect LoPhi.Lib.Machine LoPhi.Lib.Interaction
open LoPhi.Pxe.Dhcpd LoPhi.Pxe.Leases LoPhi.Tftp.Server LoPhi.Tftp.Transfer LoPhi.Tftp.Sessions

/-! ## What was set -/

/-- The configuration that a command of the access-control server sets for the machine. -/
def setBy (mac : Mac) : List (List Char) → Option (List Char)
  | cmd :: owner :: conf :: _ =>
    if cmd = "addpxe".toList ∧ lower owner = mac then some conf else none
  | _ => none

def sets (mac : Mac) : Message → Option (List Char)
  | .acl data => setBy mac (data.splitOn ' ')
  | _ => none

/-- The configuration last set for the machine. -/
def wanted (mac : Mac) (ms : List Message) : Option (List Char) :=
  (ms.filterMap (sets mac)).getLast?

variable {s : Services} {mac mac' : Mac} {ip : Ip} {ipStart : Ip} {o : Nat}

theorem macToPxeConf_discover (packet : DhcpPacket) :
    (handleDhcpDiscover s packet).1.macToPxeConf = s.macToPxeConf := by
  unfold handleDhcpDiscover
  dsimp only
  split
  · rfl
  · split
    · rfl
    · split <;> rfl

theorem macToPxeConf_request (packet : DhcpPacket) :
    (handleDhcpRequest s packet).1.macToPxeConf = s.macToPxeConf := by
  unfold handleDhcpRequest
  dsimp only
  split
  · rfl
  · split
    · rfl
    · split
      · split <;> rfl
      · rfl

theorem macToPxeConf_acl (data : List Char) (mac : Mac) :
    (processAclRequest s data).1.macToPxeConf.get? mac =
      (setBy mac (data.splitOn ' ')).or (s.macToPxeConf.get? mac) := by
  unfold processAclRequest
  cases data.splitOn ' ' with
  | nil => rfl
  | cons cmd rest =>
    dsimp only
    by_cases hcmd : cmd = "addpxe".toList
    · subst hcmd
      rw [if_neg (by decide), if_neg (by decide), if_neg (by decide), if_pos rfl]
      match rest with
      | [] => rfl
      | [owner] => rfl
      | owner :: conf :: more =>
        show (s.macToPxeConf.insert (lower owner) conf).get? mac = _
        rw [Dict.get?_insert, setBy]
        by_cases hmac : lower owner = mac
        · rw [if_pos hmac.symm, if_pos ⟨rfl, hmac⟩]
          rfl
        · rw [if_neg (Ne.symm hmac), if_neg fun h => hmac h.2]
          rfl
    · have hnone : setBy mac (cmd :: rest) = none := by
        match rest with
        | [] => rfl
        | [owner] => rfl
        | owner :: conf :: more => exact if_neg fun h => hcmd h.1
      rw [hnone, Option.none_or, if_neg hcmd]
      repeat' split
      all_goals rfl

/-- A message sets a configuration, or leaves all of them as they are. -/
theorem macToPxeConf_step (s : Services) (m : Message) (mac : Mac) :
    (step s m).1.macToPxeConf.get? mac = (sets mac m).or (s.macToPxeConf.get? mac) := by
  cases m with
  | discover packet =>
    show (handleDhcpDiscover s packet).1.macToPxeConf.get? mac = _
    rw [macToPxeConf_discover]
    rfl
  | request packet =>
    show (handleDhcpRequest s packet).1.macToPxeConf.get? mac = _
    rw [macToPxeConf_request]
    rfl
  | decline packet => rfl
  | release packet => rfl
  | acl data => exact macToPxeConf_acl data mac

theorem wanted_append (mac : Mac) (ms : List Message) (m : Message) :
    wanted mac (ms ++ [m]) = (sets mac m).or (wanted mac ms) := by
  unfold wanted
  rw [List.filterMap_append]
  cases h : sets mac m with
  | none => simp [h]
  | some conf => simp [h]

/-- After a run the dictionary has what was last set. -/
theorem macToPxeConf_run (config : Config) (ipStart : Ip) (poolSize : Nat) (ms : List Message)
    (mac : Mac) :
    (run step (Services.init config ipStart poolSize) ms).macToPxeConf.get? mac =
      wanted mac ms := by
  induction ms using List.reverseRecOn with
  | nil => rfl
  | append_singleton ms m ih =>
    rw [run_append, run_cons, run_nil, macToPxeConf_step, ih, wanted_append]

/-! ## Whose address it is -/

/-- What the TFTP server knows of the services. -/
def tablesOf (s : Services) : Tables := ⟨some s.leases.macToIp, some s.macToPxeConf⟩

/-- A machine is found by its address. -/
theorem getMac_of_lease (hd : Distinct s.leases) (hlease : s.leases.macToIp.get? mac = some ip) :
    getMac (tablesOf s) ip = some mac := by
  show ((s.leases.macToIp.items.find? fun p => p.2 = ip).map Prod.fst) = some mac
  cases hfind : s.leases.macToIp.items.find? fun p => p.2 = ip with
  | none =>
    have hnone := List.find?_eq_none.mp hfind (mac, ip) (Dict.get?_eq_some_iff.mp hlease)
    simp at hnone
  | some p =>
    obtain ⟨mac', ip'⟩ := p
    have hip : ip' = ip := by simpa using List.find?_some hfind
    rw [hip] at hfind
    have hlease' := Dict.get?_eq_some_iff.mpr (List.mem_of_find?_eq_some hfind)
    rw [Option.map_some, hd mac' mac ip hlease' hlease]

theorem getPxeConf_of_lease (hd : Distinct s.leases)
    (hlease : s.leases.macToIp.get? mac = some ip) :
    getPxeConf (tablesOf s) ip = s.macToPxeConf.get? mac := by
  unfold getPxeConf
  rw [getMac_of_lease hd hlease]
  rfl

/-! ## What is opened -/

/-- The connection reads a file only if it did before, and then the same. -/
def SameContent (c c' : Connection) : Prop :=
  ∀ content pos, c'.file = .reading content pos → ∃ pos', c.file = .reading content pos'

theorem composes_sameContent : Composes SameContent where
  refl _ content pos h := ⟨pos, h⟩
  trans h h' content pos hfile := by
    obtain ⟨pos', hfile'⟩ := h' content pos hfile
    exact h content pos' hfile'

theorem SameContent.of_file {c c' : Connection} (h : c'.file = c.file) : SameContent c c' :=
  fun _ pos hfile => ⟨pos, h ▸ hfile⟩

theorem keeps_sendto (pkt : Bytes) : Keeps SameContent (sendto pkt) := fun c =>
  .of_file (sendto_file pkt c)

theorem keeps_send (pkt : Bytes) : Keeps SameContent (send pkt) :=
  keeps_bind composes_sameContent (keeps_sendto pkt) fun _ => keeps_modify fun _ => .of_file rfl

theorem keeps_sendOack (options : List (Bytes × Bytes)) :
    Keeps SameContent (sendOack options) :=
  keeps_bind composes_sameContent (keeps_send _) fun _ => keeps_modify fun _ => .of_file rfl

theorem keeps_readFile : Keeps SameContent readFile := by
  intro c
  unfold readFile
  split
  · exact composes_sameContent.refl c
  · exact composes_sameContent.refl c
  · rename_i content pos hfile
    split
    · exact composes_sameContent.refl c
    · rintro content' pos' heq
      cases heq
      exact ⟨pos, hfile⟩

theorem keeps_sendData (data : Bytes) : Keeps SameContent (sendData data) := by
  refine keeps_bind composes_sameContent (keeps_modify fun _ => .of_file rfl) fun _ => ?_
  refine keeps_read fun c => ?_
  refine bind_allowed composes_sameContent (keeps_ofExcept composes_sameContent _ c) ?_
  intro _ s' _
  refine keeps_bind composes_sameContent (keeps_send _) (fun _ => ?_) s'
  exact keeps_modify fun _ => .of_file rfl

theorem keeps_sendAck : Keeps SameContent sendAck := by
  refine keeps_read fun c => ?_
  refine bind_allowed composes_sameContent (keeps_modify (fun _ => .of_file rfl) c) ?_
  intro _ s' _
  refine keeps_bind composes_sameContent (keeps_ofExcept composes_sameContent _) (fun _ => ?_) s'
  exact keeps_send _

variable {env : Environment} {c c' : Connection} {content data filename : Bytes} {pos : Nat}

/-- What is opened for reading was looked for. -/
theorem openAndSend_opens {entries : Dict Bytes Bytes} {resource : Bytes}
    {lophiString : Option Bytes} (hc : ∀ pos, c.file ≠ .reading content pos)
    (h : (openAndSend env entries resource lophiString c).2.file = .reading content pos) :
    source env.host resource lophiString = some content := by
  unfold openAndSend at h
  cases hsource : source env.host resource lophiString with
  | none =>
    rw [hsource] at h
    have hsent := sendto_file (errorPacket 1 (bytesOf "Cannot open resource".toList)) c
    have hfile := hsent.symm.trans h
    exact absurd hfile (hc pos)
  | some found =>
    rw [hsource] at h
    have hkeeps : Keeps SameContent (if (entries.get? (bytesOf "tsize".toList)).isSome then
        pure () else (do
          let data ← readFile
          sendData data) : Prog Exc Connection Unit) := by
      split
      · exact keeps_pure composes_sameContent _
      · exact keeps_bind composes_sameContent keeps_readFile keeps_sendData
    obtain ⟨pos', hfile⟩ := hkeeps { c with file := .reading found 0 } content pos h
    cases hfile
    rfl

theorem handleRrq_opens {entries : Dict Bytes Bytes} (hc : c.file = .closed)
    (h : (handleRrq env entries c).2.file = .reading content pos) :
    ∃ filename resource lophiString, entries.get? (bytesOf "filename".toList) = some filename ∧
      customise env filename = .ok (resource, lophiString) ∧
      source env.host resource lophiString = some content := by
  unfold handleRrq at h
  cases hname : entries.get? (bytesOf "filename".toList) with
  | none =>
    rw [hname] at h
    cases hc.symm.trans h
  | some filename =>
    rw [hname, orRaise_some_bind] at h
    cases hfound : customise env filename with
    | error e =>
      rw [hfound] at h
      cases hc.symm.trans h
    | ok found =>
      obtain ⟨resource, lophiString⟩ := found
      refine ⟨filename, resource, lophiString, rfl, hfound, ?_⟩
      rw [hfound, ofExcept_ok_bind] at h
      dsimp only at h
      cases hasked : sizeAsked entries with
      | error e =>
        rw [hasked] at h
        cases hc.symm.trans h
      | ok asked =>
        rw [hasked, ofExcept_ok_bind] at h
        split at h
        · cases hsize : announced env.host resource lophiString with
          | none =>
            rw [hsize] at h
            have hfile := (sendto_file (errorPacket 1 (bytesOf "Cannot access resource".toList))
              { c with active := false }).symm.trans h
            cases hc.symm.trans hfile
          | some size =>
            rw [hsize] at h
            dsimp only at h
            cases hsend : sendOack (sizeOptions entries size) c with
            | mk result c₁ =>
              have hkeeps := keeps_sendOack (sizeOptions entries size) c
              rw [hsend] at hkeeps
              have hclosed : ∀ pos', c₁.file ≠ .reading content pos' := by
                intro pos' hfile
                obtain ⟨pos₀, hfile₀⟩ := hkeeps content pos' hfile
                cases hc.symm.trans hfile₀
              cases result with
              | error e =>
                rw [bind_error hsend] at h
                exact absurd h (hclosed pos)
              | ok a =>
                rw [bind_ok hsend] at h
                exact openAndSend_opens hclosed h
        · refine openAndSend_opens (fun pos' hfile => ?_) h
          cases hc.symm.trans hfile

theorem keeps_handleWrq (entries : Dict Bytes Bytes) :
    Keeps SameContent (handleWrq env entries) := by
  refine keeps_bind composes_sameContent (keeps_orRaise composes_sameContent _ _) fun resource => ?_
  split
  · exact keeps_pure composes_sameContent _
  · split
    · refine keeps_bind composes_sameContent (keeps_modify fun _ => ?_) fun _ => keeps_sendAck
      intro content pos hfile
      cases hfile
    · exact keeps_sendto _

/-- The file that a request to read asks for. -/
def requestedFile (env : Environment) (data : Bytes) : Option Bytes :=
  match (parse env.host (data.take 516) { blocksize := env.settings.blocksize }).1 with
  | .ok (.request opcode entries) =>
    if opcode = 1 then entries.get? (bytesOf "filename".toList) else none
  | _ => none

/-- A file is opened for reading by a request for it only. -/
theorem connect_opens (h : (connOf (connect env data)).file = .reading content pos) :
    ∃ filename resource lophiString, requestedFile env data = some filename ∧
      customise env filename = .ok (resource, lophiString) ∧
      source env.host resource lophiString = some content := by
  unfold connect at h
  rw [connOf_settle] at h
  unfold requestedFile
  have hparsed := parse_cases env.host (data.take 516) { blocksize := env.settings.blocksize }
  cases hparse : parse env.host (data.take 516) { blocksize := env.settings.blocksize } with
  | mk result c =>
    rw [hparse] at hparsed
    cases hparsed with
    | raised hunmoved =>
      rw [bind_error hparse] at h
      cases hunmoved.file.symm.trans h
    | ack hack =>
      rw [bind_ok hparse] at h
      cases h
    | data hdata =>
      rw [bind_ok hparse] at h
      cases h
    | err =>
      rw [bind_ok hparse] at h
      cases h
    | request hunmoved =>
      rename_i opcode entries
      have hclosed : c.file = .closed := hunmoved.file
      rw [bind_ok hparse] at h
      unfold handleRequest at h
      dsimp only at h
      split at h
      · cases hclosed.symm.trans h
      · by_cases hop : opcode = 1
        · subst hop
          exact handleRrq_opens (c := { c with active := true }) hclosed h
        · have hkeeps : Keeps SameContent (handleWrq env entries) := keeps_handleWrq entries
          have hfile : (handleWrq env entries { c with active := true }).2.file =
              .reading content pos := by
            rw [← h]
            exact congrArg (fun p : Except Exc Unit × Connection => p.2.file)
              (congrFun (if_neg hop).symm _)
          obtain ⟨pos', hfile⟩ := hkeeps _ content pos hfile
          cases hclosed.symm.trans hfile

/-! ## Boot configurations -/

/-- There is an image of this name. -/
def isImage (host : Host) (conf : List Char) : Bool :=
  match host.images with
  | .ok images => images.any fun names => names.contains (bytesOf conf)
  | .error _ => false

/-- What a machine is served as `resource` that has this configuration: the file of its name next
to `resource`, a script that restores the image of its name, or `resource` itself. -/
def bootFile (host : Host) (resource : Bytes) : Option (List Char) → Option Bytes
  | none => source host resource none
  | some conf =>
    if host.pathExists (join (dirname resource) (bytesOf conf)) then
      source host (join (dirname resource) (bytesOf conf)) none
    else if isImage host conf then some (pxeConfigStr (bytesOf conf))
    else source host resource none

theorem customise_default {resource : Bytes} {lophiString : Option Bytes}
    (hdefault : env.host.relpath filename = .ok (bytesOf "pxelinux.cfg/default".toList))
    (h : customise env filename = .ok (resource, lophiString)) :
    source env.host resource lophiString =
      bootFile env.host filename (getPxeConf env.tables env.clientIp) := by
  unfold customise at h
  rw [hdefault] at h
  dsimp only [bind, Except.bind] at h
  rw [if_pos rfl] at h
  cases hconf : getPxeConf env.tables env.clientIp with
  | none =>
    rw [hconf] at h
    cases h
    rfl
  | some conf =>
    rw [hconf] at h
    cases himages : env.host.images with
    | error e =>
      rw [himages] at h
      cases h
    | ok images =>
      rw [himages] at h
      dsimp only at h
      unfold bootFile isImage
      rw [himages]
      dsimp only
      split at h
      · rename_i hexists
        rw [if_pos hexists]
        cases h
        rfl
      · rename_i hmissing
        rw [if_neg hmissing]
        split at h
        · rename_i hlisted
          rw [if_pos hlisted]
          cases h
          rfl
        · rename_i hunlisted
          rw [if_neg hunlisted]
          cases h
          rfl

/-- The server as it is after the messages, to a client with the address. -/
def serverAfter (settings : Settings) (host : Host) (config : Config) (ipStart : Ip)
    (poolSize : Nat) (ms : List Message) (ip : Ip) : Environment :=
  ⟨settings, tablesOf (Machine.run step (Services.init config ipStart poolSize) ms), host, ip⟩

/-- After any messages to the DHCP server and the access-control server, a machine that asks for
the boot configuration from the address it was leased gets the one last set for it, and all it is
sent then are blocks of that file. -/
theorem serves_own_configuration (settings : Settings) (host : Host) (config : Config)
    (ipStart : Ip) (poolSize : Nat) (ms : List Message) {request : Bytes}
    (hlease : (Machine.run step (Services.init config ipStart poolSize)
      ms).leases.macToIp.get? mac = some ip)
    (hrequest : requestedFile (serverAfter settings host config ipStart poolSize ms ip) request =
      some filename)
    (hdefault : host.relpath filename = .ok (bytesOf "pxelinux.cfg/default".toList))
    (hopen : (connOf (connect (serverAfter settings host config ipStart poolSize ms ip)
      request)).file = .reading content pos) :
    bootFile host filename (wanted mac ms) = some content ∧
      ∀ bs : Nat, 0 < bs →
        requestedSize (serverAfter settings host config ipStart poolSize ms ip) request = bs →
        ∀ events, ∃ m, Sends content bs m (connOf (Sessions.run
          (serverAfter settings host config ipStart poolSize ms ip)
          (connect (serverAfter settings host config ipStart poolSize ms ip) request)
          events)).sent := by
  constructor
  · obtain ⟨filename', resource, lophiString, hname, hfound, hsource⟩ := connect_opens hopen
    obtain rfl := Option.some.inj (hrequest.symm.trans hname)
    have hown : getPxeConf (tablesOf (Machine.run step
        (Services.init config ipStart poolSize) ms)) ip = wanted mac ms := by
      rw [getPxeConf_of_lease (apart_run config ipStart poolSize ms).distinct hlease,
        macToPxeConf_run]
    rw [← hown, ← hsource]
    exact (customise_default hdefault hfound).symm
  · intro bs hbs hsize events
    obtain ⟨first, m, -, -, hsends, -⟩ := sends_blocks_in_order hbs hsize hopen events
    exact ⟨m, hsends⟩

/-- Two machines ask for addresses, and a configuration is set for each. -/
def twoMachines : List Message :=
  [.discover { hardware := [1] }, .acl "addpxe 01 first".toList,
    .discover { hardware := [2] }, .acl "addpxe 02 second".toList]

/-- The configurations are files of one byte. -/
def twoFiles : Host where
  resolve resource := .ok (bytesOf "/tftp/".toList ++ resource)
  relpath resource := .ok (resource.drop 6)
  pathExists resource :=
    resource = bytesOf "/tftp/pxelinux.cfg/first".toList ||
      resource = bytesOf "/tftp/pxelinux.cfg/second".toList
  images := .ok none
  isUrl _ := false
  size _ := some 1
  openRead resource :=
    if resource = bytesOf "/tftp/pxelinux.cfg/first".toList then some [1]
    else if resource = bytesOf "/tftp/pxelinux.cfg/second".toList then some [2]
    else none
  openWrite _ := false
  timeout _ := some true

def defaultRequest : Bytes := [0, 1] ++ bytesOf "pxelinux.cfg/default\x00octet\x00".toList

/-- The server to the second machine. -/
abbrev secondServer : Environment :=
  serverAfter ⟨none⟩ twoFiles testConfig ⟨10, 0, 0, 100⟩ 2 twoMachines ⟨10, 0, 0, 101⟩

theorem opens_second :
    (connOf (connect secondServer defaultRequest)).file = .reading [2] 1 := by decide +kernel

theorem serves_second :
    bootFile twoFiles (bytesOf "/tftp/pxelinux.cfg/default".toList)
        (wanted ['0', '2'] twoMachines) = some [2] ∧
      ∀ bs : Nat, 0 < bs → requestedSize secondServer defaultRequest = bs →
        ∀ events, ∃ m, Sends [2] bs m (connOf (Sessions.run secondServer
          (connect secondServer defaultRequest) events)).sent :=
  serves_own_configuration ⟨none⟩ twoFiles testConfig ⟨10, 0, 0, 100⟩ 2 twoMachines
    (by decide +kernel) (by decide +kernel) (by rfl) opens_second

end LoPhi.Tftp.BootConfig
