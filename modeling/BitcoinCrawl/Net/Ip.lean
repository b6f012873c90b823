set_option autoImplicit false

/-! # IP addresses

Version 4 addresses are four octets, version 6 addresses eight groups of sixteen bits. An IPv4 address
has a second spelling inside IPv6, `::ffff:a.b.c.d`; `IpAddress.collapse` picks the IPv4 one, so equal
hosts have equal addresses. The derived order puts IPv4 before IPv6 and then compares from the most
significant part on. -/

namespace BitcoinCrawl

/-- An IPv4 address, most significant octet first. -/
structure Ipv4 where
  a : UInt8
  b : UInt8
  c : UInt8
  d : UInt8
  deriving DecidableEq, Hashable, Ord, Inhabited

/-- An IPv6 address, most significant group first. -/
structure Ipv6 where
  g0 : UInt16
  g1 : UInt16
  g2 : UInt16
  g3 : UInt16
  g4 : UInt16
  g5 : UInt16
  g6 : UInt16
  g7 : UInt16
  deriving DecidableEq, Hashable, Ord, Inhabited

/-- A host address of either version. -/
inductive IpAddress where
  | v4 (ip : Ipv4)
  | v6 (ip : Ipv6)
  deriving DecidableEq, Hashable, Ord, Inhabited

/-! ## Octets -/

/-- The high and the low octet of a group. -/
def octetPair (group : UInt16) : List UInt8 := [(group >>> 8).toUInt8, group.toUInt8]

/-- The group with the given high and low octet. -/
def groupOf (high low : UInt8) : UInt16 := (high.toUInt16 <<< 8) ||| low.toUInt16

namespace Ipv4

/-- `0.0.0.0`, which stands for no particular host. -/
def unspecified : Ipv4 := ⟨0, 0, 0, 0⟩

def octets (ip : Ipv4) : List UInt8 := [ip.a, ip.b, ip.c, ip.d]

/-- The IPv4 address with exactly these octets. -/
def ofOctets? : List UInt8 → Option Ipv4
  | [a, b, c, d] => some ⟨a, b, c, d⟩
  | _ => none

/-- The spelling of an IPv4 address inside IPv6, `::ffff:a.b.c.d`. -/
def toMapped (ip : Ipv4) : Ipv6 :=
  ⟨0, 0, 0, 0, 0, 0xffff, groupOf ip.a ip.b, groupOf ip.c ip.d⟩

end Ipv4

namespace Ipv6

/-- `::`, which stands for no particular host. -/
def unspecified : Ipv6 := ⟨0, 0, 0, 0, 0, 0, 0, 0⟩

def groups (ip : Ipv6) : List UInt16 :=
  [ip.g0, ip.g1, ip.g2, ip.g3, ip.g4, ip.g5, ip.g6, ip.g7]

/-- The IPv6 address with exactly these groups. -/
def ofGroups? : List UInt16 → Option Ipv6
  | [g0, g1, g2, g3, g4, g5, g6, g7] => some ⟨g0, g1, g2, g3, g4, g5, g6, g7⟩
  | _ => none

def octets (ip : Ipv6) : List UInt8 := ip.groups.flatMap octetPair

/-- The IPv6 address with exactly these sixteen octets. -/
def ofOctets? : List UInt8 → Option Ipv6
  | [a0, b0, a1, b1, a2, b2, a3, b3, a4, b4, a5, b5, a6, b6, a7, b7] =>
    some ⟨groupOf a0 b0, groupOf a1 b1, groupOf a2 b2, groupOf a3 b3,
      groupOf a4 b4, groupOf a5 b5, groupOf a6 b6, groupOf a7 b7⟩
  | _ => none

/-- The IPv4 address in the last two groups. -/
def lastFour (ip : Ipv6) : Ipv4 :=
  ⟨(ip.g6 >>> 8).toUInt8, ip.g6.toUInt8, (ip.g7 >>> 8).toUInt8, ip.g7.toUInt8⟩

/-- Whether the address spells an IPv4 address, `::ffff:a.b.c.d`. -/
def isMapped (ip : Ipv6) : Bool :=
  ip.g0 == 0 && ip.g1 == 0 && ip.g2 == 0 && ip.g3 == 0 && ip.g4 == 0 && ip.g5 == 0xffff

/-- Whether all but the last two groups are zero, the retired spelling `::a.b.c.d`. -/
def isCompatible (ip : Ipv6) : Bool :=
  ip.g0 == 0 && ip.g1 == 0 && ip.g2 == 0 && ip.g3 == 0 && ip.g4 == 0 && ip.g5 == 0

/-- Whether the address lies in `fd87:d87e:eb43::/48`, the range that wraps version 2 onion names. -/
def isOnionCat (ip : Ipv6) : Bool :=
  ip.g0 == 0xfd87 && ip.g1 == 0xd87e && ip.g2 == 0xeb43

end Ipv6

namespace IpAddress

/-- The IPv4 form of an address that spells one, every other address as it is. -/
def collapse : IpAddress → IpAddress
  | v4 ip => v4 ip
  | v6 ip => if ip.isMapped then v4 ip.lastFour else v6 ip

/-- Whether the address stands for no particular host. -/
def isUnspecified : IpAddress → Bool
  | v4 ip => ip == .unspecified
  | v6 ip => ip == .unspecified

/-- Whether the address is an IPv6 spelling of an IPv4 address. -/
def isMapped : IpAddress → Bool
  | v4 _ => false
  | v6 ip => ip.isMapped

def octets : IpAddress → List UInt8
  | v4 ip => ip.octets
  | v6 ip => ip.octets

/-- The address with exactly these octets, four or sixteen of them. -/
def ofOctets? (bytes : List UInt8) : Option IpAddress :=
  ((Ipv4.ofOctets? bytes).map v4).or ((Ipv6.ofOctets? bytes).map v6)

/-- The sixteen octets of the address in the common IPv6 notation. -/
def octets16 : IpAddress → List UInt8
  | v4 ip => ip.toMapped.octets
  | v6 ip => ip.octets

theorem isMapped_collapse (ip : IpAddress) : ip.collapse.isMapped = false := by
  cases ip with
  | v4 _ => rfl
  | v6 ip =>
    cases h : ip.isMapped <;> simp [collapse, isMapped, h]

theorem collapse_of_not_mapped {ip : IpAddress} (h : ip.isMapped = false) : ip.collapse = ip := by
  cases ip with
  | v4 _ => rfl
  | v6 ip => simp_all [collapse, isMapped]

end IpAddress

end BitcoinCrawl
