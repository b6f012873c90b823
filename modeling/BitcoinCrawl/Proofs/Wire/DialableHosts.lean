import BitcoinCrawl.Proofs.Wire.Announcements

set_option autoImplicit false

/-! # Hosts that can be dialed

Which entries of an announcement lead to an endpoint, said without the endpoint: those with an IP address that
belongs to a particular host, and a port. The notice of a message keeps them all, in their order, and no other
(`Notice.ofMessage_addr`, `Notice.ofMessage_addrV2`). -/

namespace BitcoinCrawl

/-- Whether somebody can be at a port of an address. No host has the unspecified addresses of the two versions, nor
    `::ffff:0.0.0.0`, which spells one of them. -/
def Dialable (ip : IpAddress) (port : UInt16) : Prop :=
  port ≠ 0 ∧ ip ≠ .v4 .unspecified ∧ ip ≠ .v6 .unspecified ∧ ip ≠ .v6 Ipv4.unspecified.toMapped

instance (ip : IpAddress) (port : UInt16) : Decidable (Dialable ip port) :=
  inferInstanceAs (Decidable (_ ∧ _ ∧ _ ∧ _))

/-! ## Addresses of nobody -/

/-- Of the IPv6 spellings of IPv4 hosts only one is of the unspecified one. -/
theorem Ipv6.lastFour_eq_unspecified_of_isMapped {ip : Ipv6} (h : ip.isMapped = true) :
    ip.lastFour = .unspecified ↔ ip = Ipv4.unspecified.toMapped := by
  refine ⟨fun hzero => ?_, fun hzero => hzero ▸ Ipv4.lastFour_toMapped .unspecified⟩
  obtain ⟨g0, g1, g2, g3, g4, g5, g6, g7⟩ := ip
  simp only [isMapped, Bool.and_eq_true, beq_iff_eq] at h
  obtain ⟨⟨⟨⟨⟨rfl, rfl⟩, rfl⟩, rfl⟩, rfl⟩, rfl⟩ := h
  simp only [lastFour, Ipv4.unspecified, Ipv4.mk.injEq] at hzero
  obtain ⟨h6, h6', h7, h7'⟩ := hzero
  obtain rfl := group_eq_zero h6 h6'
  obtain rfl := group_eq_zero h7 h7'
  rfl

namespace IpAddress

/-- Three addresses collapse to an unspecified one. -/
theorem isUnspecified_collapse (ip : IpAddress) :
    ip.collapse.isUnspecified = true ↔
      ip = .v4 .unspecified ∨ ip = .v6 .unspecified ∨ ip = .v6 Ipv4.unspecified.toMapped := by
  cases ip with
  | v4 ip => simp [collapse, isUnspecified]
  | v6 ip =>
      by_cases hmapped : ip.isMapped = true
      · have hspecified : ip ≠ .unspecified := by
          rintro rfl
          cases hmapped
        simp [collapse, isUnspecified, hmapped, hspecified, Ipv6.lastFour_eq_unspecified_of_isMapped hmapped]
      · have hunmapped : ip ≠ Ipv4.unspecified.toMapped := by
          rintro rfl
          exact hmapped rfl
        simp [collapse, isUnspecified, hmapped, hunmapped]

end IpAddress

/-- What cannot be dialed is port zero, and what collapses to an unspecified address. -/
theorem dialable_iff (ip : IpAddress) (port : UInt16) :
    Dialable ip port ↔ port ≠ 0 ∧ ip.collapse.isUnspecified = false := by
  rw [← Bool.not_eq_true, ip.isUnspecified_collapse, not_or, not_or]
  rfl

namespace Endpoint

variable {ip : IpAddress} {port : UInt16}

theorem announced?_of_dialable (h : Dialable ip port) : announced? ip port = some (of ip port) :=
  announced?_eq_some ((dialable_iff ip port).mp h).1 ((dialable_iff ip port).mp h).2

theorem announced?_of_not_dialable (h : ¬ Dialable ip port) : announced? ip port = none := by
  by_cases hport : port = 0
  · simp [announced?, of, hport]
  · refine announced?_of_unspecified ?_ port
    rw [dialable_iff, not_and, Bool.not_eq_false] at h
    exact h hport

/-- The endpoint of a host that can be dialed has a port and the address of somebody, in IPv4 form if it has one. -/
structure OfHost (e : Endpoint) : Prop where
  port : e.port ≠ 0
  specified : e.ip.isUnspecified = false
  notMapped : e.ip.isMapped = false

theorem ofHost_of (h : Dialable ip port) : OfHost (of ip port) where
  port := ((dialable_iff ip port).mp h).1
  specified := ((dialable_iff ip port).mp h).2
  notMapped := ip.isMapped_collapse

end Endpoint

/-! ## Entries with an IP address -/

/-- In the older format only the entries that wrap an onion name have no IP address. -/
theorem NetAddress.ip?_eq_none {address : NetAddress} : address.ip? = none ↔ address.host.isOnionCat = true := by
  simp only [ip?]
  split_ifs <;> simp_all

/-- In the newer format the entries with an IP address are those of the two networks that have such addresses. -/
theorem HostAddress.ip?_eq_some {host : HostAddress} {ip : IpAddress} : host.ip? = some ip ↔ host = .ofIp ip := by
  cases host <;> cases ip <;> simp [ip?, ofIp]

/-- The IP addresses and ports that a message announces. -/
def Message.hosts : Message → List (IpAddress × UInt16)
  | .addr entries => entries.filterMap fun entry => entry.2.ip?.map (·, entry.2.port)
  | .addrV2 entries => entries.filterMap fun entry => entry.host.ip?.map (·, entry.port)
  | _ => []

/-- The endpoints of the hosts among them that can be dialed. -/
def Message.dialable (m : Message) : List Endpoint :=
  (m.hosts.filter fun host => Dialable host.1 host.2).map fun host => .of host.1 host.2

/-- Entries that lead to an endpoint are those whose host can be dialed. -/
theorem filterMap_announced? {α : Type} (ip? : α → Option IpAddress) (port : α → UInt16) (entries : List α) :
    entries.filterMap (fun entry => (ip? entry).bind (Endpoint.announced? · (port entry))) =
      ((entries.filterMap fun entry => (ip? entry).map (·, port entry)).filter
        fun host => Dialable host.1 host.2).map fun host => .of host.1 host.2 := by
  induction entries with
  | nil => rfl
  | cons entry rest ih =>
      rw [List.filterMap_cons, List.filterMap_cons, ih]
      cases ip? entry with
      | none => rfl
      | some ip =>
          by_cases hdialable : Dialable ip (port entry)
          · simp [hdialable, Endpoint.announced?_of_dialable hdialable]
          · simp [hdialable, Endpoint.announced?_of_not_dialable hdialable]

namespace Notice

theorem ofMessage_addr (entries : List (UInt32 × NetAddress)) :
    ofMessage (.addr entries) = .addr (Message.addr entries).dialable :=
  congrArg addr (filterMap_announced? (fun entry : UInt32 × NetAddress => entry.2.ip?) (·.2.port) entries)

theorem ofMessage_addrV2 (entries : List HostEntry) :
    ofMessage (.addrV2 entries) = .addrV2 (Message.addrV2 entries).dialable :=
  congrArg addrV2 (filterMap_announced? (fun entry : HostEntry => entry.host.ip?) HostEntry.port entries)

/-- The notice of a message announces the hosts that can be dialed. -/
theorem announced_ofMessage (m : Message) : (ofMessage m).announced = m.dialable := by
  cases m with
  | addr entries => rw [ofMessage_addr, announced]
  | addrV2 entries => rw [ofMessage_addrV2, announced]
  | _ => rfl

end Notice

theorem Message.ofHost_of_mem_dialable {m : Message} {e : Endpoint} (h : e ∈ m.dialable) : e.OfHost := by
  obtain ⟨host, hhost, rfl⟩ := List.mem_map.mp h
  exact Endpoint.ofHost_of (of_decide_eq_true (List.mem_filter.mp hhost).2)

end BitcoinCrawl
