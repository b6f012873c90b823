import BitcoinCrawl.Crawl.Notice
import BitcoinCrawl.Proofs.Registry.Views
import BitcoinCrawl.Proofs.Wire.Reading

set_option autoImplicit false

/-! # One host in two formats

A host with an IP address can be announced in the older format and in the newer one. Both leave IPv4 hosts
and their spelling `::ffff:a.b.c.d` to the same endpoint, but the older one also takes the retired spelling
`::a.b.c.d` for an IPv4 host, which the newer one does not. The main theorem (`announced_alike_iff`) says that
this is the only difference: apart from these addresses a registry holds a host once, however it is announced,
and of these it holds two. -/

namespace BitcoinCrawl

namespace IpAddress

/-- Whether the address wraps a version 2 onion name. -/
def isOnionCat : IpAddress → Bool
  | v4 _ => false
  | v6 ip => ip.isOnionCat

/-- Whether the address has the form `::a.b.c.d` that once spelled IPv4 hosts. The unspecified address, which
    nobody dials, is not counted. -/
def isRetired : IpAddress → Bool
  | v4 _ => false
  | v6 ip => ip.isCompatible && ip != .unspecified

end IpAddress

/-- A host of the network that its IP address belongs to. -/
def HostAddress.ofIp : IpAddress → HostAddress
  | .v4 ip => ipv4 ip
  | .v6 ip => ipv6 ip

/-! ## The last four octets -/

theorem toNat_groupOf (high low : UInt8) : (groupOf high low).toNat = high.toNat * 2 ^ 8 + low.toNat := by
  have hhigh := high.toNat_lt
  have hshift : high.toNat <<< 8 % 2 ^ 16 = high.toNat <<< 8 := by
    rw [Nat.shiftLeft_eq]
    omega
  simp only [groupOf, UInt16.toNat_or, UInt16.toNat_shiftLeft, UInt8.toNat_toUInt16]
  show high.toNat <<< 8 % 2 ^ 16 ||| low.toNat = _
  rw [hshift, ← Nat.shiftLeft_add_eq_or_of_lt low.toNat_lt, Nat.shiftLeft_eq]

theorem groupOf_high (high low : UInt8) : (groupOf high low >>> 8).toUInt8 = high := by
  have hhigh := high.toNat_lt
  have hlow := low.toNat_lt
  refine UInt8.toNat_inj.mp ?_
  rw [UInt16.toNat_toUInt8, UInt16.toNat_shiftRight, toNat_groupOf]
  show (high.toNat * 2 ^ 8 + low.toNat) >>> 8 % 2 ^ 8 = high.toNat
  rw [Nat.shiftRight_eq_div_pow]
  omega

theorem groupOf_low (high low : UInt8) : (groupOf high low).toUInt8 = low := by
  have hlow := low.toNat_lt
  refine UInt8.toNat_inj.mp ?_
  rw [UInt16.toNat_toUInt8, toNat_groupOf]
  omega

theorem group_eq_zero {group : UInt16} (high : (group >>> 8).toUInt8 = 0) (low : group.toUInt8 = 0) :
    group = 0 := by
  have hgroup := Decoder.groupOf_octetPair group
  rw [high, low] at hgroup
  exact hgroup.symm

@[simp] theorem Ipv4.lastFour_toMapped (ip : Ipv4) : ip.toMapped.lastFour = ip := by
  simp only [toMapped, Ipv6.lastFour, groupOf_high, groupOf_low]

@[simp] theorem Ipv4.isMapped_toMapped (ip : Ipv4) : ip.toMapped.isMapped = true := rfl

@[simp] theorem Ipv4.isOnionCat_toMapped (ip : Ipv4) : ip.toMapped.isOnionCat = false := rfl

theorem Ipv6.isMapped_of_isCompatible {ip : Ipv6} (h : ip.isCompatible = true) : ip.isMapped = false := by
  simp only [isCompatible, Bool.and_eq_true, beq_iff_eq] at h
  simp [isMapped, h.2]

/-- Of the addresses `::a.b.c.d` only the unspecified one ends in four zeros. -/
theorem Ipv6.lastFour_eq_unspecified {ip : Ipv6} (h : ip.isCompatible = true) :
    ip.lastFour = .unspecified ↔ ip = .unspecified := by
  refine ⟨fun hzero => ?_, fun hzero => hzero ▸ rfl⟩
  obtain ⟨g0, g1, g2, g3, g4, g5, g6, g7⟩ := ip
  simp only [isCompatible, Bool.and_eq_true, beq_iff_eq] at h
  obtain ⟨⟨⟨⟨⟨rfl, rfl⟩, rfl⟩, rfl⟩, rfl⟩, rfl⟩ := h
  simp only [lastFour, Ipv4.unspecified, Ipv4.mk.injEq] at hzero
  obtain ⟨h6, h6', h7, h7'⟩ := hzero
  obtain rfl := group_eq_zero h6 h6'
  obtain rfl := group_eq_zero h7 h7'
  rfl

/-! ## Endpoints of entries -/

namespace Endpoint

/-- Nobody dials a host that collapses to an unspecified address. -/
theorem announced?_of_unspecified {ip : IpAddress} (hip : ip.collapse.isUnspecified = true) (port : UInt16) :
    announced? ip port = none := by
  simp [announced?, of, hip]

theorem announced?_eq_some {ip : IpAddress} {port : UInt16} (hport : port ≠ 0)
    (hip : ip.collapse.isUnspecified = false) : announced? ip port = some (of ip port) := by
  simp [announced?, of, hport, hip]

/-- Only the collapsed address matters. -/
theorem announced?_congr {ip ip' : IpAddress} (h : ip.collapse = ip'.collapse) (port : UInt16) :
    announced? ip port = announced? ip' port := by
  simp [announced?, of, h]

end Endpoint

variable {ip : IpAddress}

theorem HostAddress.endpoint?_ofIp (ip : IpAddress) (port : UInt16) :
    (HostAddress.ofIp ip).endpoint? port = Endpoint.announced? ip port := by
  cases ip <;> rfl

/-- Addresses that are not retired mean the same in the older format. -/
theorem NetAddress.endpoint?_ofSocket (notOnion : ip.isOnionCat = false) (current : ip.isRetired = false)
    (port : UInt16) (services : Services) :
    (NetAddress.ofSocket (.ofIp ip port) services).endpoint? = Endpoint.announced? ip port := by
  cases ip with
  | v4 ip =>
      show (NetAddress.mk services ip.toMapped port).endpoint? = _
      simp [endpoint?, ip?]
  | v6 ip =>
      have honion : ip.isOnionCat = false := notOnion
      show (NetAddress.mk services ip port).endpoint? = _
      simp only [endpoint?, ip?, honion, Bool.false_eq_true, if_false]
      by_cases hmapped : ip.isMapped = true
      · simp only [hmapped, Bool.true_or, if_true, Option.bind_some]
        refine Endpoint.announced?_congr ?_ port
        simp [IpAddress.collapse, hmapped]
      · by_cases hcompatible : ip.isCompatible = true
        · -- The only one left of that form is the unspecified address, which has no endpoint either way.
          have hzero : ip = .unspecified := by simpa [IpAddress.isRetired, hcompatible] using current
          subst hzero
          rw [hcompatible, Bool.or_true, if_pos rfl, Option.bind_some]
          exact (Endpoint.announced?_of_unspecified rfl port).trans
            (Endpoint.announced?_of_unspecified rfl port).symm
        · simp [hmapped, hcompatible]

/-- The older format takes a retired address for the IPv4 host in it, the newer one as it is. -/
theorem endpoint?_of_isRetired {ip : Ipv6} (notOnion : ip.isOnionCat = false)
    (retired : (IpAddress.v6 ip).isRetired = true) {port : UInt16} (hport : port ≠ 0) (services : Services) :
    (NetAddress.ofSocket (.ofIp (.v6 ip) port) services).endpoint? = some (.of (.v4 ip.lastFour) port) ∧
      (HostAddress.ofIp (.v6 ip)).endpoint? port = some (.of (.v6 ip) port) := by
  obtain ⟨hcompatible, hsome⟩ : ip.isCompatible = true ∧ ip ≠ .unspecified := by
    simpa [IpAddress.isRetired] using retired
  have hmapped := ip.isMapped_of_isCompatible hcompatible
  have hlast := (Ipv6.lastFour_eq_unspecified hcompatible).not.mpr hsome
  constructor
  · show (NetAddress.mk services ip port).endpoint? = _
    simp only [NetAddress.endpoint?, NetAddress.ip?, notOnion, hcompatible, Bool.or_true, Bool.false_eq_true,
      if_false, if_true, Option.bind_some]
    exact Endpoint.announced?_eq_some hport (by simpa [IpAddress.collapse, IpAddress.isUnspecified] using hlast)
  · rw [HostAddress.endpoint?_ofIp]
    exact Endpoint.announced?_eq_some hport
      (by simpa [IpAddress.collapse, hmapped, IpAddress.isUnspecified] using hsome)

theorem of_lastFour_ne {ip : Ipv6} (h : ip.isCompatible = true) (port : UInt16) :
    Endpoint.of (.v4 ip.lastFour) port ≠ Endpoint.of (.v6 ip) port := by
  simp [Endpoint.of, IpAddress.collapse, ip.isMapped_of_isCompatible h]

/-- The entries of a host lead to the same endpoint or to none, unless its address is a retired one. -/
theorem endpoint?_alike_iff (notOnion : ip.isOnionCat = false) (port : UInt16) (services : Services) :
    (NetAddress.ofSocket (.ofIp ip port) services).endpoint? = (HostAddress.ofIp ip).endpoint? port ↔
      port = 0 ∨ ip.isRetired = false := by
  by_cases hport : port = 0
  · subst hport
    have hnone : ∀ ip, Endpoint.announced? ip 0 = none := fun ip => by simp [Endpoint.announced?, Endpoint.of]
    have hold : (NetAddress.ofSocket (.ofIp ip 0) services).endpoint? = none := by
      cases ip <;> simp [NetAddress.endpoint?, NetAddress.ofSocket, SocketAddress.ofIp, SocketAddress.port, hnone]
    simp [hold, HostAddress.endpoint?_ofIp, hnone]
  · cases hretired : ip.isRetired with
    | false =>
        rw [NetAddress.endpoint?_ofSocket notOnion hretired, HostAddress.endpoint?_ofIp]
        simp
    | true =>
        cases ip with
        | v4 ip => cases hretired
        | v6 ip =>
            obtain ⟨hold, hnew⟩ := endpoint?_of_isRetired notOnion hretired hport services
            have hcompatible : ip.isCompatible = true := (Bool.and_eq_true_iff.mp hretired).1
            rw [hold, hnew, Option.some_inj]
            simp [hport, of_lastFour_ne hcompatible]

/-! ## What a registry holds of a host -/

namespace Registry

/-- Who has added some endpoints finds none of them new. -/
theorem add_again (r : Registry) (es : List Endpoint) : ((r.add es).1.add es).2 = 0 := by
  rw [add_of_known]
  intro e he
  rw [node?_add, if_pos he]
  cases r.node? e <;> rfl

/-- Two endpoints that a registry does not know are two new nodes, whichever comes first. -/
theorem add_two {r : Registry} {a b : Endpoint} (hab : a ≠ b) (ha : r.node? a = none) (hb : r.node? b = none) :
    (r.add [a]).2 = 1 ∧ ((r.add [a]).1.add [b]).2 = 1 := by
  have hfirst : r.add [a] = _ := addOne_of_new 0 ha
  have hb' : (r.add [a]).1.node? b = none := by
    rw [node?_add, hb]
    simp [Ne.symm hab]
  have hsecond : (r.add [a]).1.add [b] = _ := addOne_of_new 0 hb'
  rw [hsecond, hfirst]
  exact ⟨rfl, rfl⟩

end Registry

/-- The endpoints that a message announces. -/
def Message.announced (m : Message) : List Endpoint := (Notice.ofMessage m).announced

/-- A message that announces a host in the older format. -/
def Message.older (ip : IpAddress) (port : UInt16) (services : Services) (time : UInt32) : Message :=
  .addr [(time, .ofSocket (.ofIp ip port) services)]

/-- A message that announces a host in the newer format. -/
def Message.newer (ip : IpAddress) (port : UInt16) (services : Services) (time : UInt32) : Message :=
  .addrV2 [⟨time, services, .ofIp ip, port⟩]

/-- **The two formats give a host with an IP address one identity, unless the address is a retired IPv6
    spelling of an IPv4 host.** Then, and only then, or at port zero, the two entries lead to the same endpoint
    or both to none, and a registry that has heard one message has nothing to add for the other. At all other
    ports the entries of a host with a retired address lead to two endpoints, and a registry that knows neither
    takes both for new nodes. -/
theorem announced_alike_iff (notOnion : ip.isOnionCat = false) (port : UInt16) (services services' : Services)
    (time time' : UInt32) :
    ((NetAddress.ofSocket (.ofIp ip port) services).endpoint? = (HostAddress.ofIp ip).endpoint? port ↔
        port = 0 ∨ ip.isRetired = false) ∧
      ((port = 0 ∨ ip.isRetired = false) → ∀ r : Registry,
        ((r.add (Message.older ip port services time).announced).1.add
          (Message.newer ip port services' time').announced).2 = 0 ∧
        ((r.add (Message.newer ip port services' time').announced).1.add
          (Message.older ip port services time).announced).2 = 0) ∧
      (¬ (port = 0 ∨ ip.isRetired = false) → ∃ a b, a ≠ b ∧
        (Message.older ip port services time).announced = [a] ∧
        (Message.newer ip port services' time').announced = [b] ∧
        ∀ r : Registry, r.node? a = none → r.node? b = none →
          (r.add [a]).2 = 1 ∧ ((r.add [a]).1.add [b]).2 = 1) := by
  have hiff := endpoint?_alike_iff notOnion port services
  have hold : (Message.older ip port services time).announced
      = (NetAddress.ofSocket (.ofIp ip port) services).endpoint?.toList := by
    simp only [Message.announced, Message.older, Notice.ofMessage, Notice.announced, List.filterMap_cons]
    cases (NetAddress.ofSocket (.ofIp ip port) services).endpoint? <;> rfl
  have hnew : (Message.newer ip port services' time').announced
      = ((HostAddress.ofIp ip).endpoint? port).toList := by
    simp only [Message.announced, Message.newer, Notice.ofMessage, Notice.announced, List.filterMap_cons,
      HostEntry.endpoint?]
    cases (HostAddress.ofIp ip).endpoint? port <;> rfl
  refine ⟨hiff, fun halike r => ?_, fun hretired => ?_⟩
  · rw [hold, hnew, hiff.mpr halike]
    exact ⟨r.add_again _, r.add_again _⟩
  · obtain ⟨hport, hretired⟩ := not_or.mp hretired
    cases ip with
    | v4 ip => exact absurd rfl hretired
    | v6 ip =>
        have hretired := Bool.not_eq_false _ ▸ hretired
        obtain ⟨h4, h6⟩ := endpoint?_of_isRetired notOnion hretired hport services
        have hne := of_lastFour_ne (Bool.and_eq_true_iff.mp hretired).1 port
        rw [h4] at hold
        rw [h6] at hnew
        exact ⟨_, _, hne, hold, hnew, fun r => Registry.add_two hne⟩

/-- `::ffff:10.0.0.1` in the older format is `10.0.0.1` in the newer one. -/
theorem mapped_announced_alike :
    (IpAddress.v6 (Ipv4.toMapped ⟨10, 0, 0, 1⟩)).isOnionCat = false ∧
      (NetAddress.ofSocket (.ofIp (.v6 (Ipv4.toMapped ⟨10, 0, 0, 1⟩)) 8333) ⟨9⟩).endpoint?
        = (HostAddress.ofIp (.v6 (Ipv4.toMapped ⟨10, 0, 0, 1⟩))).endpoint? 8333 :=
  ⟨rfl, (announced_alike_iff rfl 8333 ⟨9⟩ ⟨9⟩ 0 0).1.mpr (.inr rfl)⟩

/-- The loopback address `::1` is `0.0.0.1` in the older format. -/
theorem loopback_not_alike :
    ¬ ∀ (ip : IpAddress) (port : UInt16) (services : Services), ip.isOnionCat = false →
      (NetAddress.ofSocket (.ofIp ip port) services).endpoint? = (HostAddress.ofIp ip).endpoint? port := by
  intro hall
  have hloopback := hall (.v6 ⟨0, 0, 0, 0, 0, 0, 0, 1⟩) 8333 ⟨1⟩ rfl
  exact absurd hloopback (by decide)

end BitcoinCrawl
